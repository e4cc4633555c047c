import Mathlib.Data.List.Basic
import Mathlib.Data.List.Zip

/-
  File:      Smocket/Rendezvous.lean
  Subject:   A QUEUE WITH TWO SIDES. Library: takers wait for givers and givers for takers; whoever
             comes is served by the first who waits on the other side.

  Both sides are kept whole, in the order of arrival: who was served by whom is their `zip`, who
  still waits is what one side has more than the other. So the order in which the two sides are
  served is not a law to prove but the definition; what is proved is that each operation does to
  the three lists what a program does that keeps them apart.

  * `Queue.pairs`, `Queue.waiting`, `Queue.ready` -- the three lists;
  * `Queue.waiting_or_ready` -- nobody waits on one side while somebody waits on the other;
  * `offer_serves`, `offer_waits`, `take_serves`, `take_waits`, `discard_spec`, `close_spec` -- the
    operations;
  * `mem_givers` -- a giver has been taken or is ready.
-/

namespace Rendezvous

/-- The two sides, without those who left unserved. -/
structure Queue (Taker Giver : Type) where
  takers : List Taker := []
  givers : List Giver := []

/-- What happens at a queue. -/
inductive Op (Taker Giver : Type) where
  | offer (g : Giver)
  | take (t : Taker)
  /-- a giver that waits withdraws -/
  | discard (g : Giver)
  /-- everyone who waits leaves -/
  | close

namespace Queue

variable {Taker Giver : Type} {q : Queue Taker Giver} {t : Taker} {g : Giver}

def pairs (q : Queue Taker Giver) : List (Taker × Giver) := q.takers.zip q.givers

def waiting (q : Queue Taker Giver) : List Taker := q.takers.drop q.givers.length

def ready (q : Queue Taker Giver) : List Giver := q.givers.drop q.takers.length

def apply [DecidableEq Giver] (q : Queue Taker Giver) : Op Taker Giver → Queue Taker Giver
  | .offer g => { q with givers := q.givers ++ [g] }
  | .take t => { q with takers := q.takers ++ [t] }
  | .discard g => { q with givers := q.givers.take q.takers.length ++ q.ready.erase g }
  | .close => { takers := q.takers.take q.givers.length, givers := q.givers.take q.takers.length }

/-- **Nobody waits on one side while somebody waits on the other.** -/
theorem waiting_or_ready (q : Queue Taker Giver) : q.waiting = [] ∨ q.ready = [] := by
  rcases Nat.le_total q.takers.length q.givers.length with h | h
  · exact Or.inl (List.drop_eq_nil_of_le h)
  · exact Or.inr (List.drop_eq_nil_of_le h)

theorem length_le_of_waiting (h : q.waiting = []) : q.takers.length ≤ q.givers.length :=
  List.drop_eq_nil_iff.mp h

theorem length_le_of_ready (h : q.ready = []) : q.givers.length ≤ q.takers.length :=
  List.drop_eq_nil_iff.mp h

theorem takers_eq (q : Queue Taker Giver) :
    q.takers = q.takers.take q.givers.length ++ q.waiting := (List.take_append_drop ..).symm

/-- What one side has more than the other is served by nobody. -/
theorem pairs_eq (q : Queue Taker Giver) :
    q.pairs = (q.takers.take q.givers.length).zip (q.givers.take q.takers.length) := by
  have ht : q.takers.take (min q.takers.length q.givers.length) =
      q.takers.take q.givers.length := List.take_eq_take_iff.mpr (by omega)
  have hg : q.givers.take (min q.takers.length q.givers.length) =
      q.givers.take q.takers.length := List.take_eq_take_iff.mpr (by omega)
  rw [pairs, List.zip_eq_zip_take_min, ht, hg]

/-- The other side's view. -/
def swap (q : Queue Taker Giver) : Queue Giver Taker := { takers := q.givers, givers := q.takers }

theorem swap_pairs (q : Queue Taker Giver) : q.swap.pairs = q.pairs.map Prod.swap :=
  (List.zip_swap ..).symm

section Operations

variable [DecidableEq Giver]

/-- A giver serves the first who waits. -/
theorem offer_serves {ts : List Taker} (h : q.waiting = t :: ts) :
    (q.apply (.offer g)).pairs = q.pairs ++ [(t, g)] ∧ (q.apply (.offer g)).waiting = ts ∧
      (q.apply (.offer g)).ready = q.ready := by
  have hlt : q.givers.length < q.takers.length := by
    by_contra hle
    rw [waiting, List.drop_eq_nil_of_le (by omega)] at h
    cases h
  have hready : q.ready = [] := List.drop_eq_nil_of_le (by omega)
  refine ⟨?_, ?_, ?_⟩
  · have hlen : (q.takers.take q.givers.length).length = q.givers.length := by
      rw [List.length_take]
      omega
    have htake : q.givers.take q.takers.length = q.givers :=
      List.take_of_length_le (Nat.le_of_lt hlt)
    rw [pairs_eq q, htake]
    show q.takers.zip (q.givers ++ [g]) = _
    conv_lhs => rw [takers_eq q, h]
    rw [List.zip_append hlen, List.zip_cons_cons, List.zip_nil_right]
  · show q.takers.drop (q.givers ++ [g]).length = ts
    rw [List.length_append, ← List.drop_drop]
    show (q.waiting).drop 1 = ts
    rw [h]
    rfl
  · rw [hready]
    exact List.drop_eq_nil_of_le (by simp only [apply, List.length_append, List.length_singleton]; omega)

/-- A giver for whom nobody waits is ready. -/
theorem offer_waits (h : q.waiting = []) :
    (q.apply (.offer g)).pairs = q.pairs ∧ (q.apply (.offer g)).waiting = [] ∧
      (q.apply (.offer g)).ready = q.ready ++ [g] := by
  have hle := length_le_of_waiting h
  refine ⟨?_, ?_, ?_⟩
  · have htake : (q.givers ++ [g]).take q.takers.length = q.givers.take q.takers.length :=
      List.take_append_of_le_length hle
    have hall : q.takers.take (q.givers ++ [g]).length = q.takers.take q.givers.length := by
      rw [List.take_of_length_le hle, List.take_of_length_le (by simp; omega)]
    rw [pairs_eq, pairs_eq q]
    show (q.takers.take (q.givers ++ [g]).length).zip ((q.givers ++ [g]).take q.takers.length) = _
    rw [htake, hall]
  · exact List.drop_eq_nil_of_le (by simp only [apply, List.length_append]; omega)
  · exact List.drop_append_of_le_length hle

/-- A taker is served by the first who is ready. -/
theorem take_serves {gs : List Giver} (h : q.ready = g :: gs) :
    (q.apply (.take t)).pairs = q.pairs ++ [(t, g)] ∧ (q.apply (.take t)).waiting = q.waiting ∧
      (q.apply (.take t)).ready = gs := by
  classical
  obtain ⟨hp, hw, hr⟩ := offer_serves (q := q.swap) (t := g) (g := t) h
  have hpairs := congrArg (List.map Prod.swap) ((swap_pairs (q.apply (.take t))).symm.trans hp)
  rw [swap_pairs, List.map_map, List.map_append, List.map_map] at hpairs
  exact ⟨by simpa using hpairs, hr, hw⟩

/-- A taker for whom nobody is ready waits. -/
theorem take_waits (h : q.ready = []) :
    (q.apply (.take t)).pairs = q.pairs ∧ (q.apply (.take t)).waiting = q.waiting ++ [t] ∧
      (q.apply (.take t)).ready = [] := by
  classical
  obtain ⟨hp, hw, hr⟩ := offer_waits (q := q.swap) (g := t) h
  have hpairs := congrArg (List.map Prod.swap) ((swap_pairs (q.apply (.take t))).symm.trans hp)
  rw [swap_pairs, List.map_map, List.map_map] at hpairs
  exact ⟨by simpa using hpairs, hr, hw⟩

/-- A giver that withdraws was not taken. -/
theorem discard_spec (q : Queue Taker Giver) (g : Giver) :
    (q.apply (.discard g)).pairs = q.pairs ∧ (q.apply (.discard g)).waiting = q.waiting ∧
      (q.apply (.discard g)).ready = q.ready.erase g := by
  rcases waiting_or_ready q with hw | hr
  · have hle := length_le_of_waiting hw
    have hlen : (q.givers.take q.takers.length).length = q.takers.length := by
      rw [List.length_take]
      omega
    refine ⟨?_, ?_, ?_⟩
    · rw [pairs_eq, pairs_eq q, List.take_of_length_le hle]
      show (q.takers.take (q.givers.take q.takers.length ++ q.ready.erase g).length).zip
        ((q.givers.take q.takers.length ++ q.ready.erase g).take q.takers.length) = _
      rw [List.take_of_length_le (by rw [List.length_append, hlen]; omega),
        List.take_append_of_le_length (Nat.le_of_eq hlen.symm),
        List.take_of_length_le (Nat.le_of_eq hlen)]
    · rw [hw]
      exact List.drop_eq_nil_of_le (by simp only [apply, List.length_append, hlen]; omega)
    · show (q.givers.take q.takers.length ++ q.ready.erase g).drop q.takers.length = _
      rw [List.drop_append_of_le_length (Nat.le_of_eq hlen.symm),
        List.drop_eq_nil_of_le (Nat.le_of_eq hlen), List.nil_append]
  · have hsame : q.apply (.discard g) = q := by
      show { q with givers := q.givers.take q.takers.length ++ q.ready.erase g } = q
      rw [hr, List.erase_nil, List.append_nil, List.take_of_length_le (length_le_of_ready hr)]
    rw [hsame, hr]
    exact ⟨rfl, rfl, rfl⟩

/-- Those who leave were not served. -/
theorem close_spec (q : Queue Taker Giver) :
    (q.apply .close).pairs = q.pairs ∧ (q.apply .close).waiting = [] ∧
      (q.apply .close).ready = [] := by
  refine ⟨(pairs_eq q).symm, ?_, ?_⟩
  · refine List.drop_eq_nil_of_le ?_
    simp only [apply, List.length_take]
    omega
  · refine List.drop_eq_nil_of_le ?_
    simp only [apply, List.length_take]
    omega

/-- Every giver has been offered. -/
theorem mem_apply_givers {op : Op Taker Giver} (h : g ∈ (q.apply op).givers) :
    g ∈ q.givers ∨ op = .offer g := by
  cases op with
  | offer g' =>
      rcases List.mem_append.mp h with h | h
      · exact Or.inl h
      · exact Or.inr (List.mem_singleton.mp h ▸ rfl)
  | take t => exact Or.inl h
  | discard g' =>
      rcases List.mem_append.mp h with h | h
      · exact Or.inl (List.mem_of_mem_take h)
      · exact Or.inl (List.mem_of_mem_drop (List.mem_of_mem_erase h))
  | close => exact Or.inl (List.mem_of_mem_take h)

end Operations

/-- A giver who has been taken, or is ready, has been offered. -/
theorem mem_givers (h : (t, g) ∈ q.pairs ∨ g ∈ q.ready) : g ∈ q.givers := by
  rcases h with h | h
  · exact (List.of_mem_zip h).2
  · exact List.mem_of_mem_drop h

end Queue

end Rendezvous
