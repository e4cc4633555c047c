import Smocket.Collectors
import Smocket.Traces

/-
  File:      Smocket/Tallies.lean
  Subject:   WHAT A COLLECTING CALLBACK IS TOLD: a collector as a function of the answers heard
             before its timer.

  * `Ledger`, `Tally`, `exec_tally` -- the counter is the number of recipients still due, the array
    what the others answered first, the flag whether the timer or the last answer has come;
  * `tally_inductive` -- its step, while observers leave `answer` alone;
  * **`collects_exactly`** -- what the callback is told, over every run;
  * **`parent_settled_once`** -- a parent's trailing callback, with `children_settle_twice` for a
    parent of two children.
-/

namespace Smocket.Collect

open EventLoop EventLoop.Machine

variable {V : Type}

/-! ## 1. Counting recipients -/

/-- Distinct recipients are all there are exactly when they are as many. -/
theorem all_iff_length {l : List Nat} {n : Nat} (hd : l.Nodup) (hl : ∀ k ∈ l, k < n) :
    (∀ k < n, k ∈ l) ↔ l.length = n := by
  have hcard : l.toFinset.card = l.length := List.toFinset_card_of_nodup hd
  have hsub : l.toFinset ⊆ Finset.range n := fun k hk =>
    Finset.mem_range.mpr (hl k (List.mem_toFinset.mp hk))
  constructor
  · intro h
    have heq : l.toFinset = Finset.range n := Finset.Subset.antisymm hsub fun k hk =>
      List.mem_toFinset.mpr (h k (Finset.mem_range.mp hk))
    rw [← hcard, heq, Finset.card_range]
  · intro h k hk
    have heq := Finset.eq_of_subset_of_card_le hsub (by rw [hcard, h, Finset.card_range])
    exact List.mem_toFinset.mp (heq ▸ Finset.mem_range.mpr hk)

theorem append_pair {α : Type} (l : List α) (a b : α) : l ++ [a, b] = l ++ [a] ++ [b] := by simp

/-! ## 2. The tally of a collector -/

/-- The answers of recipient `k` that have passed its guards and encode. -/
def acknowledgements (k : Nat) (h : List (Event V)) : List (List V) :=
  h.filterMap fun
    | .acknowledged _ k' answer => if k' = k then some answer else none
    | _ => none

/-- The recipients that have been heard before the timer. -/
def contributors (h : List (Event V)) : List Nat := (heard h).map Prod.fst

/-- The first value of each answer heard, in the order of arrival. -/
def contributions (h : List (Event V)) : List (Option V) := (heard h).map fun y => y.2.head?

theorem acknowledgements_concat (k : Nat) (h : List (Event V)) {e : Event V}
    (he : ∀ j answer, e ≠ .acknowledged j k answer) :
    acknowledgements k (h ++ [e]) = acknowledgements k h := by
  cases e with
  | acknowledged j k' answer =>
      have hk : k' ≠ k := fun h => he j answer (h ▸ rfl)
      simp [acknowledgements, hk]
  | _ => simp [acknowledgements]

/-- Before the timer fires every answer is heard. -/
theorem heard_open {h : List (Event V)} (hf : fired h = false) : heard h = answers h := by
  have hall : ∀ x ∈ h, (!x.isFired) = true := by simpa [fired] using hf
  rw [heard, List.takeWhile_eq_self_iff.mpr hall, answers]

/-- The answers of a collector of `n` recipients: `acked` are those whose acknowledgement function
    has been used. -/
structure Ledger (encodePayload : List V → Option (List V)) (n : Nat) (h : List (Event V))
    (acked : Nat → Bool) : Prop where
  distinct : ((answers h).map Prod.fst).Nodup
  within : ∀ y ∈ answers h, y.1 < n
  answered : ∀ y ∈ answers h, acked y.1 = true
  genuine : ∀ y ∈ answers h, ∃ answer ∈ acknowledgements y.1 h, encodePayload answer = some y.2
  once : ∀ k, (acknowledgements k h).length ≤ 1
  unused : ∀ k, acked k = false → acknowledgements k h = []

/-- **The collector `x` as its history `h` says.** -/
structure Tally (j : Nat) (x : Collector V) (h : List (Event V)) : Prop where
  counts : (heard h).length + x.remaining = x.recipients
  responses : x.responses = contributions h
  settled : x.recipients ≠ 0 → (x.settled = true ↔ fired h = true ∨ x.remaining = 0)
  timer : x.timer = true ↔ x.recipients ≠ 0 ∧ x.settled = false
  early : fired h = true → x.remaining ≠ 0
  told : x.recipients ≠ 0 → calls h =
    if x.remaining = 0 then [⟨j, x.callback, false, x.responses⟩]
    else if fired h then [⟨j, x.callback, true, x.responses⟩] else []
  idle : x.recipients = 0 → fired h = false ∧ ∀ i ∈ calls h, i = ⟨j, x.callback, false, []⟩

section Ledger

variable {encodePayload : List V → Option (List V)} {n j k : Nat} {h : List (Event V)}
  {acked acked' : Nat → Bool}

/-- More acknowledgement functions have been used. -/
theorem Ledger.used (hl : Ledger encodePayload n h acked)
    (ha : ∀ k, acked k = true → acked' k = true) : Ledger encodePayload n h acked' :=
  { hl with
    answered := fun y hy => ha y.1 (hl.answered y hy)
    unused := fun k hk => hl.unused k (Bool.eq_false_iff.mpr fun h => by
      rw [ha k h] at hk
      cases hk) }

/-- An event that is neither an answer nor an acknowledgement. -/
theorem Ledger.keep (hl : Ledger encodePayload n h acked) {e : Event V} (he : e.answer? = none)
    (hk : ∀ j k answer, e ≠ .acknowledged j k answer) :
    Ledger encodePayload n (h ++ [e]) acked := by
  have hanswers : answers (h ++ [e]) = answers h := by
    rw [answers_concat, he]
    exact List.append_nil _
  have hacks : ∀ k, acknowledgements k (h ++ [e]) = acknowledgements k h := fun k =>
    acknowledgements_concat k h fun j answer => hk j k answer
  constructor
  · rw [hanswers]
    exact hl.distinct
  · rw [hanswers]
    exact hl.within
  · rw [hanswers]
    exact hl.answered
  · rw [hanswers]
    intro y hy
    rw [hacks]
    exact hl.genuine y hy
  · intro k
    rw [hacks]
    exact hl.once k
  · intro k
    rw [hacks]
    exact hl.unused k

/-- An acknowledgement, the first of its recipient. -/
theorem Ledger.acknowledge (hl : Ledger encodePayload n h acked) {answer : List V}
    (hk : acked k = false) (ha : ∀ k, acked k = true → acked' k = true) (hk' : acked' k = true) :
    Ledger encodePayload n (h ++ [.acknowledged j k answer]) acked' := by
  have hanswers : answers (h ++ [.acknowledged j k answer]) = answers h := by
    rw [answers_concat]
    exact List.append_nil _
  have hother : ∀ k', k' ≠ k → acknowledgements k' (h ++ [.acknowledged j k answer]) =
      acknowledgements k' h := fun k' hne => acknowledgements_concat k' h fun j' answer' he => by
    cases he
    exact hne rfl
  have hthis : acknowledgements k (h ++ [.acknowledged j k answer]) = [answer] := by
    have hnil := hl.unused k hk
    unfold acknowledgements at hnil ⊢
    rw [List.filterMap_append, hnil]
    simp
  constructor
  · rw [hanswers]
    exact hl.distinct
  · rw [hanswers]
    exact hl.within
  · rw [hanswers]
    exact fun y hy => ha y.1 (hl.answered y hy)
  · rw [hanswers]
    intro y hy
    have hne : y.1 ≠ k := fun hy' => by
      have := hl.answered y hy
      rw [hy', hk] at this
      cases this
    rw [hother _ hne]
    exact hl.genuine y hy
  · intro k'
    by_cases hne : k' = k
    · rw [hne, hthis]
      exact le_rfl
    · rw [hother k' hne]
      exact hl.once k'
  · intro k' hf
    have hne : k' ≠ k := fun h => by
      rw [h, hk'] at hf
      cases hf
    rw [hother k' hne]
    exact hl.unused k' (Bool.eq_false_iff.mpr fun h => by
      rw [ha k' h] at hf
      cases hf)

/-- The answer of a recipient that has acknowledged and not answered. -/
theorem Ledger.answer (hl : Ledger encodePayload n h acked) {received : List V} (hk : k < n)
    (hn : k ∉ (answers h).map Prod.fst) (ha : acked k = true)
    (hg : ∃ answer ∈ acknowledgements k h, encodePayload answer = some received) :
    Ledger encodePayload n (h ++ [.answered j k received]) acked := by
  have hanswers : answers (h ++ [.answered j k received]) = answers h ++ [(k, received)] :=
    answers_concat ..
  have hmem : ∀ {y}, y ∈ answers (h ++ [.answered j k received]) →
      y ∈ answers h ∨ y = (k, received) := fun hy => by
    rw [hanswers] at hy
    exact (List.mem_append.mp hy).imp_right List.mem_singleton.mp
  have hacks : ∀ k', acknowledgements k' (h ++ [.answered j k received]) = acknowledgements k' h :=
    fun k' => acknowledgements_concat k' h nofun
  constructor
  · rw [hanswers, List.map_append]
    refine List.Nodup.append hl.distinct (List.nodup_singleton k) fun k' hk' hk'' => ?_
    rw [List.mem_singleton.mp hk''] at hk'
    exact hn hk'
  · intro y hy
    rcases hmem hy with hy | rfl
    · exact hl.within y hy
    · exact hk
  · intro y hy
    rcases hmem hy with hy | rfl
    · exact hl.answered y hy
    · exact ha
  · intro y hy
    rw [hacks]
    rcases hmem hy with hy | rfl
    · exact hl.genuine y hy
    · exact hg
  · intro k'
    rw [hacks]
    exact hl.once k'
  · intro k'
    rw [hacks]
    exact hl.unused k'

end Ledger

section Tally

variable {encodePayload : List V → Option (List V)} {j k : Nat} {x x' : Collector V}
  {h : List (Event V)} {acked : Nat → Bool} {received : List V}

/-- A collector that has just been made. -/
theorem Tally.new (j n : Nat) (cb : Callback) :
    Tally (V := V) j ⟨n, cb, [], false, n, decide (n ≠ 0)⟩ [] where
  counts := Nat.zero_add n
  responses := rfl
  settled hn := by simpa [fired] using hn
  timer := by simp
  early := nofun
  told hn := by
    rw [if_neg hn]
    rfl
  idle _ := ⟨rfl, nofun⟩

/-- A recipient that has not answered is still due, unless the timer has fired. -/
theorem Tally.due (ht : Tally j x h) (hl : Ledger encodePayload x.recipients h acked)
    (hk : k < x.recipients) (hn : k ∉ (answers h).map Prod.fst) (hf : fired h = false) :
    x.remaining ≠ 0 := by
  intro hr
  have hw : ∀ k' ∈ (answers h).map Prod.fst, k' < x.recipients := fun k' hk' => by
    obtain ⟨y, hy, rfl⟩ := List.mem_map.mp hk'
    exact hl.within y hy
  have hlen := ht.counts
  rw [hr, heard_open hf, Nat.add_zero] at hlen
  exact hn ((all_iff_length hl.distinct hw).mpr (by rw [List.length_map, hlen]) k hk)

/-- What is neither heard nor a firing nor a call. -/
theorem Tally.keep (ht : Tally j x h) {e : Event V} (he : e.answer? = none ∨ fired h = true)
    (hf : e.isFired = false) (hc : e.call? = none) : Tally j x (h ++ [e]) := by
  have hheard : heard (h ++ [e]) = heard h := by
    rw [heard_concat]
    rcases he with he | he <;> rw [he]
    · cases fired h <;> exact List.append_nil _
    · exact List.append_nil _
  have hfired : fired (h ++ [e]) = fired h := by rw [fired_concat, hf, Bool.or_false]
  have hcalls : calls (h ++ [e]) = calls h := by
    rw [calls_concat, hc]
    exact List.append_nil _
  constructor
  · rw [hheard]
    exact ht.counts
  · rw [contributions, hheard]
    exact ht.responses
  · rw [hfired]
    exact ht.settled
  · exact ht.timer
  · rw [hfired]
    exact ht.early
  · rw [hfired, hcalls]
    exact ht.told
  · rw [hfired, hcalls]
    exact ht.idle

/-- What an answer adds to the history of an open collector. -/
theorem heard_answer (j k : Nat) (received : List V) (hf : fired h = false) :
    heard (h ++ [.answered j k received]) = heard h ++ [(k, received)] ∧
      contributions (h ++ [.answered j k received]) = contributions h ++ [received.head?] ∧
      fired (h ++ [.answered j k received]) = false ∧
      calls (h ++ [.answered j k received]) = calls h := by
  have hheard : heard (h ++ [.answered j k received]) = heard h ++ [(k, received)] := by
    rw [heard_concat, hf]
    rfl
  refine ⟨hheard, ?_, ?_, ?_⟩
  · rw [contributions, hheard, List.map_append]
    rfl
  · rw [fired_concat, hf]
    rfl
  · rw [calls_concat]
    exact List.append_nil _

/-- What a call adds. -/
theorem heard_invoked (h : List (Event V)) (i : Invocation V) :
    heard (h ++ [.invoked i]) = heard h ∧ contributions (h ++ [.invoked i]) = contributions h ∧
      fired (h ++ [.invoked i]) = fired h ∧ calls (h ++ [.invoked i]) = calls h ++ [i] := by
  have hheard : heard (h ++ [.invoked i]) = heard h := by
    rw [heard_concat]
    cases fired h <;> exact List.append_nil _
  refine ⟨hheard, ?_, ?_, ?_⟩
  · rw [contributions, hheard]
    rfl
  · rw [fired_concat]
    exact Bool.or_false _
  · rw [calls_concat]
    rfl

/-- What a firing adds. -/
theorem heard_fired (h : List (Event V)) (j : Nat) :
    heard (h ++ [.fired j]) = heard h ∧ contributions (h ++ [.fired j]) = contributions h ∧
      fired (h ++ [.fired j]) = true ∧ calls (h ++ [.fired j]) = calls h := by
  have hheard : heard (h ++ [.fired j]) = heard h := by
    rw [heard_concat]
    cases fired h <;> exact List.append_nil _
  refine ⟨hheard, ?_, ?_, ?_⟩
  · rw [contributions, hheard]
    rfl
  · rw [fired_concat]
    exact Bool.or_true _
  · rw [calls_concat]
    exact List.append_nil _

/-- An open collector: neither its timer nor its last answer has come. -/
theorem Tally.open (ht : Tally j x h) (hn : x.recipients ≠ 0) (hs : x.settled = false) :
    fired h = false ∧ x.remaining ≠ 0 ∧ calls h = [] := by
  have hor : ¬ (fired h = true ∨ x.remaining = 0) := fun h' => by
    rw [(ht.settled hn).mpr h'] at hs
    cases hs
  have hf : fired h = false := Bool.eq_false_iff.mpr fun h' => hor (Or.inl h')
  have hr : x.remaining ≠ 0 := fun h' => hor (Or.inr h')
  refine ⟨hf, hr, ?_⟩
  rw [ht.told hn, if_neg hr, hf]
  rfl

/-- An answer that others are still due after. -/
theorem Tally.next (ht : Tally j x h) (hn : x.recipients ≠ 0) (hs : x.settled = false)
    (hr : x.remaining - 1 ≠ 0) :
    Tally j { x with responses := x.responses ++ [received.head?], remaining := x.remaining - 1 }
      (h ++ [.answered j k received]) := by
  obtain ⟨hf, hr0, hc⟩ := ht.open hn hs
  obtain ⟨hheard, hcontr, hfired, hcalls⟩ := heard_answer j k received hf
  constructor
  · have := ht.counts
    rw [hheard, List.length_append, List.length_singleton]
    dsimp only
    omega
  · rw [hcontr, ← ht.responses]
  · intro _
    rw [hfired]
    dsimp only
    rw [hs]
    simp [hr]
  · exact ht.timer
  · rw [hfired]
    nofun
  · intro _
    rw [hcalls, hc, hfired]
    dsimp only
    rw [if_neg hr]
    rfl
  · exact fun h => absurd h hn

/-- The last answer. -/
theorem Tally.last (ht : Tally j x h) (hn : x.recipients ≠ 0) (hs : x.settled = false)
    (hr : x.remaining - 1 = 0) :
    Tally j
      { x with
        responses := x.responses ++ [received.head?]
        remaining := 0, settled := true, timer := false }
      (h ++ [.answered j k received,
        .invoked ⟨j, x.callback, false, x.responses ++ [received.head?]⟩]) := by
  obtain ⟨hf, hr0, hc⟩ := ht.open hn hs
  obtain ⟨hheard, hcontr, hfired, hcalls⟩ := heard_answer j k received hf
  rw [append_pair]
  generalize h ++ [.answered j k received] = h' at *
  obtain ⟨hheard', hcontr', hfired', hcalls'⟩ :=
    heard_invoked h' ⟨j, x.callback, false, x.responses ++ [received.head?]⟩
  constructor
  · have := ht.counts
    rw [hheard', hheard, List.length_append, List.length_singleton]
    dsimp only
    omega
  · rw [hcontr', hcontr, ← ht.responses]
  · exact fun _ => ⟨fun _ => Or.inr rfl, fun _ => rfl⟩
  · exact ⟨nofun, fun h => nomatch h.2⟩
  · rw [hfired', hfired]
    nofun
  · intro _
    rw [hcalls', hcalls, hc]
    rfl
  · exact fun h => absurd h hn

/-- The timer fires on an open collector. -/
theorem Tally.fire (ht : Tally j x h) (htimer : x.timer = true) :
    Tally j { x with settled := true, timer := false }
      (h ++ [.fired j, .invoked ⟨j, x.callback, true, x.responses⟩]) := by
  obtain ⟨hn, hs⟩ := ht.timer.mp htimer
  obtain ⟨hf, hr, hc⟩ := ht.open hn hs
  obtain ⟨hheard, hcontr, hfired, hcalls⟩ := heard_fired h j
  rw [append_pair]
  generalize h ++ [.fired j] = h' at *
  obtain ⟨hheard', hcontr', hfired', hcalls'⟩ :=
    heard_invoked h' ⟨j, x.callback, true, x.responses⟩
  constructor
  · rw [hheard', hheard]
    exact ht.counts
  · rw [hcontr', hcontr]
    exact ht.responses
  · intro _
    rw [hfired', hfired]
    exact ⟨fun _ => Or.inl rfl, fun _ => rfl⟩
  · exact ⟨nofun, fun h => nomatch h.2⟩
  · exact fun _ => hr
  · intro _
    dsimp only
    rw [hcalls', hcalls, hc, if_neg hr, hfired', hfired]
    rfl
  · exact fun h => absurd h hn

/-- An empty collector reports. -/
theorem Tally.empty (ht : Tally j x h) (hn : x.recipients = 0) :
    Tally j x (h ++ [.invoked ⟨j, x.callback, false, []⟩]) := by
  obtain ⟨hheard, hcontr, hfired, hcalls⟩ := heard_invoked h ⟨j, x.callback, false, []⟩
  constructor
  · rw [hheard]
    exact ht.counts
  · rw [hcontr]
    exact ht.responses
  · exact fun h => absurd hn h
  · exact ht.timer
  · rw [hfired]
    exact ht.early
  · exact fun h => absurd hn h
  · intro _
    rw [hfired, hcalls]
    refine ⟨(ht.idle hn).1, fun i hi => ?_⟩
    rcases List.mem_append.mp hi with hi | hi
    · exact (ht.idle hn).2 i hi
    · exact List.mem_singleton.mp hi

end Tally

/-! ## 3. The step of a tally -/

/-- Every collector is as its history says. -/
def Tallied (encodePayload : List V → Option (List V)) (c : Core V) : Prop :=
  ∀ j < c.collectorCount,
    Ledger encodePayload (c.collectors j).recipients (c.history j) (c.acked j) ∧
      Tally j (c.collectors j) (c.history j)

/-- A posted answer is a recipient's only one, not yet in. -/
def Due (encodePayload : List V → Option (List V)) (c : Core V) : Instr V → Prop
  | .answer j k received => c.acked j k = true ∧ k ∉ (answers (c.history j)).map Prod.fst ∧
      ∃ answer ∈ acknowledgements k (c.history j), encodePayload answer = some received
  | _ => True

/-- Each recipient answers once. -/
def turn : Instr V → Option (Nat × Nat)
  | .answer j k _ => some (j, k)
  | _ => none

section Step

variable {encodePayload : List V → Option (List V)} {c : Core V}

theorem exec_tally {i : Instr V} {j : Nat} (hi : i.collector? = some j) (hp : Pending c i)
    (hd : Due encodePayload c i)
    (hl : Ledger encodePayload (c.collectors j).recipients (c.history j) (c.acked j))
    (ht : Tally j (c.collectors j) (c.history j)) :
    Ledger encodePayload ((exec encodePayload i c).core.collectors j).recipients
        ((exec encodePayload i c).core.history j) ((exec encodePayload i c).core.acked j) ∧
      Tally j ((exec encodePayload i c).core.collectors j)
        ((exec encodePayload i c).core.history j) := by
  have ha := (exec_grows encodePayload i c).acked j
  rw [(exec_fixed encodePayload i (hp.lt hi)).1]
  cases i with
  | acknowledge j' k answer active =>
      obtain rfl := Option.some.inj hi
      simp only [exec] at ha ⊢
      rw [acknowledge_same.1]
      rcases @acknowledge_cases V c j' k encodePayload answer active with
        ⟨h, -⟩ | ⟨hk, hk', h, -⟩
      · rw [history_of_log h]
        exact ⟨hl.used ha, ht⟩
      · rw [history_of_concat h, Event.collector, if_pos rfl]
        exact ⟨hl.acknowledge hk ha hk', ht.keep (Or.inl rfl) rfl rfl⟩
  | answer j' k received =>
      obtain rfl := Option.some.inj hi
      obtain ⟨hk, hn, hg⟩ := hd
      have hn0 : (c.collectors j').recipients ≠ 0 := Nat.ne_of_gt (Nat.zero_lt_of_lt hp.2)
      have hl' := (hl.answer (j := j') hp.2 hn hk hg).used ha
      simp only [exec] at hl' ⊢
      cases hs : (c.collectors j').settled with
      | true =>
          -- without the timer, this recipient would still be due
          have hf : fired (c.history j') = true := by
            cases hf : fired (c.history j') with
            | true => rfl
            | false =>
                rcases (ht.settled hn0).mp hs with h | h
                · exact hf.symm.trans h
                · exact absurd h (ht.due hl hp.2 hn hf)
          rw [(answer_settled hs).1, (answer_settled hs).2]
          exact ⟨hl', ht.keep (Or.inr hf) rfl rfl⟩
      | false =>
          by_cases hr : (c.collectors j').remaining - 1 = 0
          · rw [(answer_last hs hr).1, (answer_last hs hr).2]
            refine ⟨?_, ht.last hn0 hs hr⟩
            rw [append_pair]
            exact hl'.keep rfl (by intro _ _ _ h; cases h)
          · rw [(answer_open hs hr).1, (answer_open hs hr).2]
            exact ⟨hl', ht.next hn0 hs hr⟩
  | timeout j' =>
      obtain rfl := Option.some.inj hi
      simp only [exec] at ha ⊢
      cases htimer : (c.collectors j').timer with
      | false =>
          rw [(timeout_cleared htimer).1, (timeout_cleared htimer).2]
          exact ⟨hl.used ha, ht⟩
      | true =>
          have hs := (ht.timer.mp htimer).2
          rw [(timeout_open htimer hs).1, (timeout_open htimer hs).2]
          refine ⟨?_, ht.fire htimer⟩
          rw [append_pair]
          have hl' := (hl.used ha).keep (e := .fired j') rfl (by intro _ _ _ h; cases h)
          exact hl'.keep rfl (by intro _ _ _ h; cases h)
  | emptyCallback j' =>
      obtain rfl := Option.some.inj hi
      have hh : (exec encodePayload (.emptyCallback j') c).core.history j' =
          c.history j' ++ [.invoked ⟨j', (c.collectors j').callback, false, []⟩] := by
        simp [exec, Event.collector]
      rw [hh]
      exact ⟨(hl.used ha).keep rfl (by intro _ _ _ h; cases h), ht.empty hp.2.1⟩
  | _ => cases hi

/-- What an instruction leaves pending. -/
theorem exec_due (hT : Tallied encodePayload c) {i : Instr V} (hp : Pending c i) :
    ∀ t ∈ (exec encodePayload i c).spawned, Due encodePayload (exec encodePayload i c).core t := by
  intro t ht
  cases t with
  | answer j k received =>
      cases i with
      | acknowledge j' k' answer active =>
          simp only [exec, acknowledge_spawned] at ht ⊢
          rcases @acknowledge_cases V c j' k' encodePayload answer active with
            ⟨-, hs⟩ | ⟨hk, hk', hlog, response, hr, hs⟩
          · rw [hs] at ht
            cases ht
          · rw [hs] at ht
            cases List.mem_singleton.mp ht
            have hl := (hT j hp.1).1
            refine ⟨hk', ?_, answer, ?_, hr⟩
            · rw [history_of_concat hlog, Event.collector, if_pos rfl, answers_concat]
              intro hmem
              obtain ⟨y, hy, rfl⟩ := List.mem_map.mp hmem
              simp only [Event.answer?, Option.toList_none, List.append_nil] at hy
              rw [hl.answered y hy] at hk
              cases hk
            · rw [history_of_concat hlog, Event.collector, if_pos rfl]
              simp [acknowledgements]
      | parentLoop | broadcast | answer | timeout =>
          simp only [exec, Collect.answer, timeout] at ht
          repeat' split at ht
          all_goals simp [Effect.spawned] at ht
      | collect cb o =>
          simp only [exec, collect] at ht
          split at ht <;> simp [Effect.spawned] at ht
      | _ => simp [exec, Effect.spawned] at ht
  | _ => trivial

theorem mem_answers {j : Nat} {y : Nat × List V} :
    y ∈ answers (c.history j) ↔ .answered j y.1 y.2 ∈ c.log := by
  constructor
  · intro hy
    obtain ⟨e, he, hey⟩ := List.mem_filterMap.mp hy
    obtain ⟨hlog, hj⟩ := mem_history.mp he
    cases e with
    | answered j' k received =>
        cases hey
        exact hj ▸ hlog
    | _ => cases hey
  · exact fun h => List.mem_filterMap.mpr ⟨_, mem_history.mpr ⟨h, rfl⟩, rfl⟩

theorem mem_acknowledgements {j k : Nat} {answer : List V} :
    answer ∈ acknowledgements k (c.history j) ↔ .acknowledged j k answer ∈ c.log := by
  constructor
  · intro ha
    obtain ⟨e, he, hea⟩ := List.mem_filterMap.mp ha
    obtain ⟨hlog, hj⟩ := mem_history.mp he
    cases e with
    | acknowledged j' k' answer' =>
        dsimp only at hea
        split at hea
        · rename_i hk
          cases hea
          exact hj ▸ hk ▸ hlog
        · cases hea
    | _ => cases hea
  · exact fun h => List.mem_filterMap.mpr ⟨_, mem_history.mpr ⟨h, rfl⟩, if_pos rfl⟩

/-- Only `answer` adds an answer. -/
theorem exec_answers {i : Instr V} {j : Nat} {y : Nat × List V}
    (hy : y ∈ answers ((exec encodePayload i c).core.history j)) :
    y ∈ answers (c.history j) ∨ i = .answer j y.1 y.2 := by
  rcases exec_events (mem_answers.mp hy) with h | h
  · exact Or.inl (mem_answers.mpr h)
  · cases i with
    | answer j' k received =>
        rcases h with h | ⟨_, h, -⟩
        · cases h
          exact Or.inr rfl
        · cases h
    | timeout =>
        rcases h with h | ⟨_, h, -⟩ <;> cases h
    | emptyCallback =>
        obtain ⟨_, h, -⟩ := h
        cases h
    | _ => cases h

theorem acknowledgements_grow {c' : Core V} (h : c.log <+: c'.log) {j k : Nat} {answer : List V}
    (ha : answer ∈ acknowledgements k (c.history j)) :
    answer ∈ acknowledgements k (c'.history j) :=
  ((h.filter _).filterMap _).subset ha

/-- What is known of a posted answer stays known. -/
theorem Due.stable {i t : Instr V} (ht : Due encodePayload c t)
    (ha : Apart turn i t) : Due encodePayload (exec encodePayload i c).core t := by
  have hg := exec_grows encodePayload i c
  cases t with
  | answer j k received =>
      obtain ⟨hk, hn, answer, hmem, henc⟩ := ht
      refine ⟨hg.acked j k hk, fun hk' => ?_, answer, acknowledgements_grow hg.log hmem, henc⟩
      obtain ⟨y, hy, rfl⟩ := List.mem_map.mp hk'
      rcases exec_answers hy with hy | rfl
      · exact hn (List.mem_map_of_mem hy)
      · exact ha (j, y.1) rfl rfl
  | _ => trivial

theorem exec_tallied (hI : Settlement c) (hT : Tallied encodePayload c) {i : Instr V}
    (hp : Pending c i) (hd : Due encodePayload c i) :
    Tallied encodePayload (exec encodePayload i c).core := by
  intro j hj
  rcases exec_table hj with hold | ⟨cb, o, rfl, rfl⟩
  · obtain ⟨hl, ht⟩ := hT j hold
    by_cases hi : i.collector? = some j
    · exact exec_tally hi hp hd hl ht
    · obtain ⟨hc, hh⟩ := exec_other encodePayload hi fun h => absurd hold (Nat.not_lt.mpr h)
      rw [hc, hh]
      exact ⟨hl.used ((exec_grows encodePayload i c).acked j), ht⟩
  · rw [exec, (collect_new cb o).1, (collect_new cb o).2.1, (hI.fresh _ le_rfl).1]
    refine ⟨⟨List.nodup_nil, (by intro _ h; cases h), (by intro _ h; cases h), (by intro _ h; cases h),
      fun _ => Nat.zero_le 1, fun _ _ => rfl⟩, .new ..⟩

/-- The turns of what an instruction leaves pending are new. -/
theorem exec_turns {i : Instr V} :
    (exec encodePayload i c).spawned.Pairwise (Apart turn) ∧
      ∀ t ∈ (exec encodePayload i c).spawned, turn t = none ∨
        ∃ j k, turn t = some (j, k) ∧ c.acked j k = false := by
  have hnone : ∀ l : List (Instr V), (∀ t ∈ l, turn t = none) → l.Pairwise (Apart turn) ∧
      ∀ t ∈ l, turn t = none ∨ ∃ j k, turn t = some (j, k) ∧ c.acked j k = false :=
    fun l hl => ⟨List.pairwise_of_forall_mem_list fun t ht _ _ => Apart.of_none (hl t ht),
      fun t ht => Or.inl (hl t ht)⟩
  cases i with
  | acknowledge j k answer active =>
      rw [exec, acknowledge_spawned]
      rcases @acknowledge_cases V c j k encodePayload answer active with
        ⟨-, hs⟩ | ⟨hk, -, -, response, -, hs⟩
      · rw [hs]
        exact hnone [] (by intro _ h; cases h)
      · rw [hs]
        refine ⟨List.pairwise_singleton .., fun t ht => ?_⟩
        rw [List.mem_singleton.mp ht]
        exact Or.inr ⟨j, k, rfl, hk⟩
  | parentLoop | broadcast | answer | timeout =>
      simp only [exec, answer, timeout]
      repeat' split
      all_goals exact hnone _ (by simp [Effect.spawned, turn])
  | collect cb o =>
      simp only [exec, collect]
      split <;> exact hnone _ (by simp [Effect.spawned, turn])
  | _ => exact hnone _ (by simp [exec, Effect.spawned, turn])

/-- Every step of a run finds the settlement in order. -/
def Settled (c : Core V) (i : Instr V) : Prop := Settlement c ∧ Pending c i

/-- **The tally is kept** while the observers leave `answer` alone. -/
theorem tally_inductive :
    Inductive (collecting encodePayload false) Settled (Tallied encodePayload) (Due encodePayload)
      turn where
  core _ _ h := exec_tallied h.good.1 h.inv h.good.2 h.ok
  spawn _ _ h := exec_due h.inv h.good.2
  stable _ _ _ _ ht ha := ht.stable ha
  call c i _ hc := by
    cases i with
    | answer => cases hc
    | _ => trivial
  handle _ _ _ _ _ h := nomatch h
  apart c i _ := exec_turns.1
  fresh c i t k h ht ha hk := by
    intro r hr hrt
    rcases exec_turns.2 k hk with h' | ⟨j, k', h', hacked⟩
    · rw [h'] at hr
      cases hr
    · cases t with
      | answer j' k'' received =>
          cases (h'.symm.trans hr).trans hrt.symm
          rw [ht.1] at hacked
          cases hacked
      | _ => cases hrt
  callFresh c i t hI hc _ := by
    refine Apart.of_none ?_
    cases i <;> first | rfl | cases hc
  handleFree _ _ _ h := nomatch h
  free _ _ h := nomatch h

end Step

/-! ## 4. Runs -/

section Runs

variable {encodePayload : List V → Option (List V)} {observing : Bool}
  {C : Config (Core V) (Instr V) → Action (Instr V) → Prop} {σ σ' : Config (Core V) (Instr V)}

theorem settlement_initial : Settlement (Core.initial (V := V)) where
  settling _ h := absurd h (Nat.not_lt_zero _)
  fresh _ _ := ⟨rfl, rfl, fun _ => ⟨rfl, rfl, rfl⟩⟩
  within _ _ h := h.elim nofun nofun
  numbered _ h := absurd h (Nat.not_lt_zero _)
  direct _ h := absurd h (Nat.not_lt_zero _)

theorem reach_settlement (h : (collecting encodePayload observing).Reach C ⟨.initial, [], []⟩ σ) :
    Keeps Settlement Pending right σ.core σ.pending :=
  Reach.inv_ok (settlement_inductive observing) (fun _ _ _ _ _ _ _ => trivial)
    ⟨settlement_initial, fun _ ht => absurd ht List.not_mem_nil, .nil⟩ h

theorem reach_tally (h : (collecting encodePayload false).Reach C ⟨.initial, [], []⟩ σ) :
    Keeps (Tallied encodePayload) (Due encodePayload) turn σ.core σ.pending := by
  have hs : (collecting encodePayload false).Reach
      ((collecting encodePayload false).Obeys Settled) ⟨.initial, [], []⟩ σ := by
    refine h.upgrade fun τ a hr _ _ i ρ hn => ?_
    have hk := (reach_settlement hr).next hn
    exact ⟨hk.inv, hk.ok i List.mem_cons_self⟩
  exact Reach.inv_ok tally_inductive (fun _ _ h => h)
    ⟨fun _ hj => absurd hj (Nat.not_lt_zero _), fun _ ht => absurd ht List.not_mem_nil, .nil⟩ hs

/-- What was fixed when a collector was made stays, and the log only grows. -/
def Later (c c' : Core V) : Prop :=
  Grows c c' ∧ ∀ j < c.collectorCount, (c'.collectors j).recipients = (c.collectors j).recipients ∧
    (c'.collectors j).callback = (c.collectors j).callback

theorem keeping_later : Keeping (collecting encodePayload observing) Later where
  refl c := ⟨.refl c, fun _ _ => ⟨rfl, rfl⟩⟩
  trans h h' := ⟨h.1.trans h'.1, fun j hj => by
    obtain ⟨h₁, h₂⟩ := h.2 j hj
    obtain ⟨h₁', h₂'⟩ := h'.2 j (hj.trans_le h.1.collectors)
    exact ⟨h₁'.trans h₁, h₂'.trans h₂⟩⟩
  run _ _ h := nomatch h

theorem reach_later (h : (collecting encodePayload observing).Reach C σ σ') :
    Later σ.core σ'.core := by
  have hk : Keeping (collecting encodePayload observing) Later := keeping_later
  induction h with
  | start => exact hk.refl _
  | @step τ _ a _ _ hs ih =>
      refine hk.trans ih ?_
      rcases hk.step hs with ⟨i, _, -, -, -, h⟩ | ⟨-, h⟩
      · exact hk.trans ⟨exec_grows encodePayload i τ.core, fun j hj => exec_fixed encodePayload i hj⟩ h
      · exact h

/-- A call once made stays made. -/
theorem Later.calls {c c' : Core V} (h : Later c c') {j : Nat} {i : Invocation V}
    (hi : i ∈ calls (c.history j)) : i ∈ calls (c'.history j) :=
  ((h.1.log.filter _).filterMap _).subset hi

/-- No exception changes the heap. -/
theorem collecting_skips (c : Core V) (i : Instr V) :
    (collecting encodePayload observing).onThrow c i ≠ .run := nofun

/-- An acknowledgement comes with the task that brings its answer. -/
theorem exec_acknowledgements {c : Core V} {i : Instr V} {j k : Nat} {answer : List V}
    (ha : answer ∈ acknowledgements k ((exec encodePayload i c).core.history j)) :
    answer ∈ acknowledgements k (c.history j) ∨ ∃ response, encodePayload answer = some response ∧
      .answer j k response ∈ (exec encodePayload i c).post := by
  rcases exec_events (mem_acknowledgements.mp ha) with h | h
  · exact Or.inl (mem_acknowledgements.mpr h)
  · cases i with
    | acknowledge j' k' answer' active =>
        cases h
        rw [exec] at ha ⊢
        rcases @acknowledge_cases V c j k encodePayload answer active with
          ⟨hlog, -⟩ | ⟨-, -, -, response, hr, hs⟩
        · rw [history_of_log hlog] at ha
          exact Or.inl ha
        · rw [hs]
          exact Or.inr ⟨response, hr, List.mem_singleton_self _⟩
    | answer | timeout =>
        rcases h with h | ⟨_, h, -⟩ <;> cases h
    | emptyCallback =>
        obtain ⟨_, h, -⟩ := h
        cases h
    | _ => cases h

/-- What an acknowledgement that has passed its guards carries. -/
theorem reach_encodes (h : (collecting encodePayload observing).Reach C ⟨.initial, [], []⟩ σ)
    {j k : Nat} {answer : List V} (ha : answer ∈ acknowledgements k (σ.core.history j)) :
    ∃ response, encodePayload answer = some response := by
  have hk : Keeping (collecting encodePayload observing) Eq :=
    ⟨fun _ => rfl, Eq.trans, fun _ _ h => nomatch h⟩
  induction h with
  | start => exact absurd ha List.not_mem_nil
  | step _ _ hs ih =>
      rcases hk.step hs with ⟨i, τ, -, -, -, h⟩ | ⟨-, h⟩
      · rw [← h] at ha
        rcases exec_acknowledgements ha with ha | ⟨response, hr, -⟩
        · exact ih ha
        · exact ⟨response, hr⟩
      · rw [← h] at ha
        exact ih ha

/-- An acknowledgement that has passed its guards arrives, or waits in the queue. -/
theorem reach_arrives (h : (collecting encodePayload observing).Reach C ⟨.initial, [], []⟩ σ)
    {j k : Nat} {answer response : List V}
    (ha : answer ∈ acknowledgements k (σ.core.history j)) (hr : encodePayload answer = some response)
    (hn : (k, response) ∉ answers (σ.core.history j)) : .answer j k response ∈ σ.queue := by
  refine h.queued (fun c => answer ∈ acknowledgements k (c.history j) ∧
    (k, response) ∉ answers (c.history j)) collecting_skips ?_ ?_ ?_ ⟨ha, hn⟩
  · rintro τ i - - ⟨ha, hn⟩
    rcases exec_acknowledgements ha with ha | ⟨response', hr', hp⟩
    · refine Or.inl ⟨ha, fun hy => hn ?_⟩
      exact (((exec_grows encodePayload i τ.core).log.filter _).filterMap _).subset hy
    · cases hr.symm.trans hr'
      exact Or.inr hp
  · rintro c ⟨-, hn⟩
    exact hn (mem_answers.mpr answer_records)
  · exact fun h => nomatch h.1

/-- An empty collector has reported, or is about to. -/
theorem reach_empty (h : (collecting encodePayload observing).Reach C ⟨.initial, [], []⟩ σ)
    {j : Nat} (hj : j < σ.core.collectorCount) (hn : (σ.core.collectors j).recipients = 0)
    (hc : calls (σ.core.history j) = []) : .emptyCallback j ∈ σ.queue := by
  refine h.queued (fun c => j < c.collectorCount ∧ (c.collectors j).recipients = 0 ∧
    calls (c.history j) = []) collecting_skips ?_ ?_ ?_ ⟨hj, hn, hc⟩
  · rintro τ i - - ⟨hj, hn, hc⟩
    rcases exec_table hj with hold | ⟨cb, o, rfl, rfl⟩
    · refine Or.inl ⟨hold, ?_, ?_⟩
      · exact (exec_fixed encodePayload i hold).1.symm.trans hn
      · exact List.prefix_nil.mp (hc ▸ ((exec_grows encodePayload i τ.core).log.filter _).filterMap _)
    · refine Or.inr ?_
      change ((collect τ.core cb o).core.collectors _).recipients = 0 at hn
      rw [(collect_new cb o).1] at hn
      change _ ∈ (collect τ.core cb o).post
      rw [collect, if_pos hn]
      exact List.mem_singleton_self _
  · rintro c ⟨-, -, hc⟩
    change calls ((c.record _).history j) = [] at hc
    rw [history_own (j := j) rfl, calls_concat] at hc
    exact absurd (List.append_eq_nil_iff.mp hc).2 (by intro h; cases h)
  · exact fun h => absurd h.1 (Nat.not_lt_zero j)

end Runs

/-! ## 5. What the callback is told -/

/-- **Collector `j` of the state `σ`**: with `h` its history, `contributors h` are the recipients
    whose answers have arrived before the timer fired, and `contributions h` the first values. -/
structure Collects (encodePayload : List V → Option (List V)) (σ : Config (Core V) (Instr V))
    (j : Nat) : Prop where
  /-- the callback is called at most once -/
  once : (calls (σ.core.history j)).length ≤ 1
  own : ∀ i ∈ calls (σ.core.history j),
    i.collector = j ∧ i.callback = (σ.core.collectors j).callback
  /-- a recipient contributes at most one entry -/
  distinct : (contributors (σ.core.history j)).Nodup
  within : ∀ k ∈ contributors (σ.core.history j), k < (σ.core.collectors j).recipients
  /-- what arrives is the one answer that has passed the recipient's guards and encodes -/
  effective : ∀ y ∈ heard (σ.core.history j), ∃ answer,
    acknowledgements y.1 (σ.core.history j) = [answer] ∧ encodePayload answer = some y.2
  /-- and every such answer arrives, unless it is still on its way -/
  arrives : ∀ k, ∀ answer ∈ acknowledgements k (σ.core.history j),
    ∃ response, encodePayload answer = some response ∧
      ((k, response) ∈ answers (σ.core.history j) ∨ .answer j k response ∈ σ.queue)
  success : (σ.core.collectors j).recipients ≠ 0 → ∀ responses,
    ⟨j, (σ.core.collectors j).callback, false, responses⟩ ∈ calls (σ.core.history j) ↔
      (∀ k < (σ.core.collectors j).recipients, k ∈ contributors (σ.core.history j)) ∧
        responses = contributions (σ.core.history j)
  /-- then there is one entry for each recipient -/
  complete : ∀ responses,
    ⟨j, (σ.core.collectors j).callback, false, responses⟩ ∈ calls (σ.core.history j) →
      responses.length = (σ.core.collectors j).recipients
  timeout : ∀ responses,
    ⟨j, (σ.core.collectors j).callback, true, responses⟩ ∈ calls (σ.core.history j) ↔
      fired (σ.core.history j) = true ∧
        (∃ k < (σ.core.collectors j).recipients, k ∉ contributors (σ.core.history j)) ∧
        responses = contributions (σ.core.history j)
  empty : (σ.core.collectors j).recipients = 0 →
    calls (σ.core.history j) = [⟨j, (σ.core.collectors j).callback, false, []⟩] ∨
      (calls (σ.core.history j) = [] ∧ .emptyCallback j ∈ σ.queue)

section Results

variable {encodePayload : List V → Option (List V)} {observing : Bool}
  {C : Config (Core V) (Instr V) → Action (Instr V) → Prop} {σ σ' : Config (Core V) (Instr V)}

theorem calls_history (c : Core V) (j : Nat) :
    calls (c.history j) = (calls c.log).filter fun i => decide (i.collector = j) := by
  rw [calls, calls, Core.history, List.filterMap_filter, List.filter_filterMap]
  congr 1
  funext e
  cases e with
  | invoked i =>
      by_cases h : i.collector = j
      · exact (if_pos (decide_eq_true h)).trans (by simp [Event.call?, Option.filter, h])
      · exact (if_neg fun h' => h (of_decide_eq_true h')).trans
          (by simp [Event.call?, Option.filter, h])
  | _ => exact ite_self none

theorem eq_singleton {α : Type} {l : List α} {a : α} (h : l.length ≤ 1) (ha : a ∈ l) : l = [a] := by
  match l, h, ha with
  | [b], _, ha => rw [List.mem_singleton.mp ha]
  | _ :: _ :: _, h, _ => simp at h

/-- A callback with one collector is called at most once. -/
theorem once_of_single (hI : Settlement σ.core) {cb : Callback}
    (hcb : ∀ j < σ.core.collectorCount, ∀ j' < σ.core.collectorCount,
      (σ.core.collectors j).callback = cb → (σ.core.collectors j').callback = cb → j = j') :
    ((calls σ.core.log).filter fun i => decide (i.callback = cb)).length ≤ 1 := by
  -- a call belongs to a collector that was made for its callback
  have hown : ∀ i ∈ calls σ.core.log, i.collector < σ.core.collectorCount ∧
      (σ.core.collectors i.collector).callback = i.callback := fun i hi => by
    have hmem : i ∈ calls (σ.core.history i.collector) := by
      rw [calls_history]
      exact List.mem_filter.mpr ⟨hi, decide_eq_true rfl⟩
    have hlt : i.collector < σ.core.collectorCount := Nat.lt_of_not_le fun hle => by
      rw [(hI.fresh _ hle).1] at hmem
      cases hmem
    exact ⟨hlt, ((hI.settling _ hlt).told i hmem).symm⟩
  generalize hl : (calls σ.core.log).filter (fun i => decide (i.callback = cb)) = l
  cases l with
  | nil => exact Nat.zero_le 1
  | cons i l =>
      have hmem : ∀ i' ∈ i :: l, i' ∈ calls σ.core.log ∧ i'.callback = cb := fun i' hi' => by
        rw [← hl] at hi'
        obtain ⟨h, h'⟩ := List.mem_filter.mp hi'
        exact ⟨h, of_decide_eq_true h'⟩
      obtain ⟨hi, hic⟩ := hmem i List.mem_cons_self
      obtain ⟨hlt, hcol⟩ := hown i hi
      have hsame : ∀ i' ∈ i :: l, i'.collector = i.collector := fun i' hi' => by
        obtain ⟨h', hc'⟩ := hmem i' hi'
        obtain ⟨hlt', hcol'⟩ := hown i' h'
        exact hcb _ hlt' _ hlt (hcol'.trans hc') (hcol.trans hic)
      have hsub : (i :: l).Sublist (calls (σ.core.history i.collector)) := by
        rw [calls_history, ← List.filter_eq_self.mpr fun i' hi' => decide_eq_true (hsame i' hi'), ← hl]
        exact List.filter_sublist.filter _
      exact hsub.length_le.trans (hI.settling _ hlt).once

theorem reach_collects (h : (collecting encodePayload false).Reach C ⟨.initial, [], []⟩ σ) {j : Nat}
    (hj : j < σ.core.collectorCount) : Collects encodePayload σ j := by
  have hI := ((reach_settlement h).inv).settling j hj
  obtain ⟨hl, ht⟩ := (reach_tally h).inv j hj
  have hsub := (heard_sublist (σ.core.history j)).map Prod.fst
  have hdistinct : (contributors (σ.core.history j)).Nodup := hsub.nodup hl.distinct
  have hwithin : ∀ k ∈ contributors (σ.core.history j), k < (σ.core.collectors j).recipients :=
    fun k hk => by
      obtain ⟨y, hy, rfl⟩ := List.mem_map.mp hk
      exact hl.within y ((heard_sublist _).subset hy)
  have hall := all_iff_length hdistinct hwithin
  -- all recipients are heard exactly when none is due
  have hdue : (∀ k < (σ.core.collectors j).recipients, k ∈ contributors (σ.core.history j)) ↔
      (σ.core.collectors j).remaining = 0 := by
    have := ht.counts
    rw [hall, contributors, List.length_map]
    omega
  constructor
  · exact hI.once
  · intro i hi
    obtain ⟨e, he, hei⟩ := List.mem_filterMap.mp hi
    have hej := (mem_history.mp he).2
    cases e with
    | invoked i' =>
        cases hei
        exact ⟨hej, hI.told i hi⟩
    | _ => cases hei
  · exact hdistinct
  · exact hwithin
  · intro y hy
    obtain ⟨answer, ha, hr⟩ := hl.genuine y ((heard_sublist _).subset hy)
    exact ⟨answer, eq_singleton (hl.once _) ha, hr⟩
  · intro k answer ha
    obtain ⟨response, hr⟩ := reach_encodes h ha
    refine ⟨response, hr, ?_⟩
    by_cases hin : (k, response) ∈ answers (σ.core.history j)
    · exact Or.inl hin
    · exact Or.inr (reach_arrives h ha hr hin)
  · intro hn responses
    rw [hdue, ht.told hn, ht.responses]
    split
    · rename_i hr
      simp [hr]
    · rename_i hr
      split <;> simp [hr]
  · intro responses hi
    by_cases hn : (σ.core.collectors j).recipients = 0
    · cases (ht.idle hn).2 _ hi
      exact hn.symm
    · rw [ht.told hn] at hi
      split at hi
      · rename_i hr
        cases List.mem_singleton.mp hi
        rw [ht.responses, contributions, List.length_map]
        have := ht.counts
        omega
      · split at hi
        · cases List.mem_singleton.mp hi
        · cases hi
  · intro responses
    have hmiss : (∃ k < (σ.core.collectors j).recipients, k ∉ contributors (σ.core.history j)) ↔
        (σ.core.collectors j).remaining ≠ 0 := by
      rw [Ne, ← hdue]
      push Not
      rfl
    rw [hmiss]
    by_cases hn : (σ.core.collectors j).recipients = 0
    · obtain ⟨hf, hidle⟩ := ht.idle hn
      rw [hf]
      exact ⟨fun hi => absurd (hidle _ hi) nofun, fun h => nomatch h.1⟩
    · rw [ht.told hn, ht.responses]
      split
      · rename_i hr
        simp [hr]
      · rename_i hr
        split
        · rename_i hf
          simp [hf, hr]
        · rename_i hf
          simp [hf]
  · intro hn
    cases hc : calls (σ.core.history j) with
    | nil => exact Or.inr ⟨rfl, reach_empty h hj hn hc⟩
    | cons i l =>
        have hi : i ∈ calls (σ.core.history j) := hc ▸ List.mem_cons_self
        rw [← hc, eq_singleton hI.once hi, (ht.idle hn).2 i hi]
        exact Or.inl rfl

/-- **What a collecting callback is told, in every run** whose observers do not call `answer`
    themselves: each collector is as `Collects` says, the callback of a direct `emit` is called at
    most once, and what it was given is still the same in every later state. -/
theorem collects_exactly (h : (collecting encodePayload false).Reach C ⟨.initial, [], []⟩ σ)
    (h' : (collecting encodePayload false).Reach C σ σ') :
    (∀ j < σ.core.collectorCount, Collects encodePayload σ j) ∧
      (∀ m, ((calls σ.core.log).filter fun i => decide (i.callback = .emit m)).length ≤ 1) ∧
      ∀ j, ∀ i ∈ calls (σ.core.history j), i ∈ calls (σ'.core.history j) ∧
        ((σ.core.collectors j).recipients ≠ 0 → i.responses = (σ'.core.collectors j).responses) := by
  have hI := (reach_settlement h).inv
  refine ⟨fun j hj => reach_collects h hj, fun m => once_of_single hI fun j hj j' hj' hm hm' =>
    hI.direct j hj j' hj' m hm hm', fun j i hi => ?_⟩
  have hlater := reach_later h'
  have hi' := hlater.calls hi
  refine ⟨hi', fun hn => ?_⟩
  have hj : j < σ.core.collectorCount := Nat.lt_of_not_le fun hle => by
    rw [(hI.fresh j hle).1] at hi
    cases hi
  obtain ⟨-, ht⟩ := (reach_tally (h.trans h')).inv j (hj.trans_le hlater.1.collectors)
  rw [← (hlater.2 j hj).1] at hn
  rw [ht.told hn] at hi'
  split at hi'
  · rw [List.mem_singleton.mp hi']
  · split at hi'
    · rw [List.mem_singleton.mp hi']
    · cases hi'

/-- Two recipients answer, the second one first. -/
theorem collects_exactly_two : ∃ σ : Config (Core Nat) (Instr Nat),
    (collecting some false).Reach (fun _ _ => True) ⟨.initial, [], []⟩ σ ∧
      calls (σ.core.history 0) = [⟨0, .emit 0, false, [some 5, some 7]⟩] ∧ Collects some σ 0 := by
  obtain ⟨σ, hr, hσ⟩ := reach_of_script (collecting some false) (fun _ _ => True)
    ⟨.initial, [], []⟩ 40
    [.call (.select 0 2), .call (.emit 0 false), .ret, .ret, .ret, .ret, .ret,
      .call (.acknowledge 0 1 [5] true), .call (.acknowledge 0 0 [7, 8] true), .run, .run, .ret]
    (fun σ => decide (0 < σ.core.collectorCount ∧
      calls (σ.core.history 0) = [⟨0, .emit 0, false, [some 5, some 7]⟩])) (by decide +kernel)
  obtain ⟨hj, hc⟩ := of_decide_eq_true hσ
  exact ⟨σ, hr, hc, (collects_exactly hr .start).1 0 hj⟩

/-! ## 6. Broadcasts of a dynamic parent -/

/-- A parent's emit comes to collect from at most one child. -/
def OneChild (c : Core V) : Instr V → Prop
  | .collect (.parent m) _ => c.Unclaimed (.parent m)
  | _ => True

instance (c : Core V) : ∀ i : Instr V, Decidable (OneChild c i)
  | .collect (.parent m) _ => inferInstanceAs (Decidable (c.Unclaimed (.parent m)))
  | .collect (.emit _) _ | .app _ | .emit .. | .parentEmit .. | .parentLoop .. | .broadcast ..
  | .sendBroadcast .. | .sendEncoded .. | .acknowledge .. | .answer .. | .timeout _
  | .emptyCallback _ | .select .. | .addChild .. => isTrue trivial

/-- No parent's callback has two collectors. -/
def SingleChild (c : Core V) : Prop :=
  ∀ m, ∀ j < c.collectorCount, ∀ j' < c.collectorCount,
    (c.collectors j).callback = .parent m → (c.collectors j').callback = .parent m → j = j'

theorem exec_single {c : Core V} {i : Instr V} (h : SingleChild c) (hi : OneChild c i) :
    SingleChild (exec encodePayload i c).core := by
  intro m j hj j' hj' hm hm'
  rcases exec_table hj with hold | ⟨cb, o, rfl, rfl⟩
  · rw [(exec_fixed encodePayload i hold).2] at hm
    rcases exec_table hj' with hold' | ⟨cb, o, rfl, rfl⟩
    · rw [(exec_fixed encodePayload i hold').2] at hm'
      exact h m j hold j' hold' hm hm'
    · rw [exec, (collect_new cb o).1] at hm'
      cases hm'
      exact absurd hm (hi j hold)
  · rw [exec, (collect_new cb o).1] at hm
    cases hm
    rcases exec_table hj' with hold' | ⟨-, -, -, rfl⟩
    · rw [(exec_fixed encodePayload _ hold').2] at hm'
      exact absurd hm' (hi j' hold')
    · rfl

theorem single_inductive :
    Inductive (collecting encodePayload observing) OneChild SingleChild (fun _ _ => True)
      fun _ => (none : Option Unit) :=
  .of_facts (fun _ _ h => exec_single h.inv h.good) (fun _ _ _ _ _ => trivial)
    (fun _ _ _ _ _ => trivial) (fun _ _ _ _ => trivial) (fun _ _ _ _ _ h => nomatch h)
    (fun _ _ h => nomatch h)

/-- **A parent's trailing callback is called at most once in every run** in which no parent's emit
    comes to collect from a second child. -/
theorem parent_settled_once
    (h : (collecting encodePayload observing).Reach
      ((collecting encodePayload observing).Obeys OneChild) ⟨.initial, [], []⟩ σ) (m : Nat) :
    ((calls σ.core.log).filter fun i => decide (i.callback = .parent m)).length ≤ 1 := by
  have hsingle := Reach.inv_ok single_inductive (fun _ _ h => h)
    ⟨fun _ _ hj => absurd hj (Nat.not_lt_zero _), fun _ _ => trivial, .nil⟩ h
  exact once_of_single (reach_settlement h).inv (hsingle.inv m)

/-- A parent of one child, whose recipient is too late. -/
theorem parent_settled_once_child : ∃ σ : Config (Core Nat) (Instr Nat),
    (collecting some true).Reach ((collecting some true).Obeys OneChild) ⟨.initial, [], []⟩ σ ∧
      calls σ.core.log = [⟨0, .parent 0, true, []⟩] ∧
      ((calls σ.core.log).filter fun i => decide (i.callback = .parent 0)).length ≤ 1 := by
  obtain ⟨σ, hr, hσ⟩ := reach_of_script (collecting some true)
    ((collecting some true).Obeys OneChild) ⟨.initial, [], []⟩ 40
    [.call (.addChild 0 0), .call (.select 0 1), .call (.parentEmit 0 false), .ret, .ret, .ret,
      .call (.timeout 0), .ret, .call (.acknowledge 0 0 [5] true), .run]
    (fun σ => decide (calls σ.core.log = [⟨0, .parent 0, true, []⟩])) (by decide +kernel)
  exact ⟨σ, hr, of_decide_eq_true hσ, parent_settled_once hr 0⟩

/-- A parent of two children, each with one recipient: the callback is called for each, with what
    that child collected. -/
theorem children_settle_twice : ¬ ∀ σ : Config (Core Nat) (Instr Nat),
    (collecting some false).Reach (fun _ _ => True) ⟨.initial, [], []⟩ σ → ∀ m,
      ((calls σ.core.log).filter fun i => decide (i.callback = .parent m)).length ≤ 1 := by
  intro hall
  obtain ⟨σ, hr, hσ⟩ := reach_of_script (collecting some false) (fun _ _ => True)
    ⟨.initial, [], []⟩ 60
    [.call (.addChild 0 0), .call (.addChild 0 1), .call (.select 0 1), .call (.select 1 1),
      .call (.parentEmit 0 false), .ret, .ret, .ret, .ret, .ret, .ret,
      .call (.acknowledge 0 0 [5] true), .call (.acknowledge 1 0 [7] true), .run, .ret, .run]
    (fun σ => decide (calls σ.core.log =
      [⟨0, .parent 0, false, [some 5]⟩, ⟨1, .parent 0, false, [some 7]⟩])) (by decide +kernel)
  have htwice := hall σ hr 0
  rw [of_decide_eq_true hσ] at htwice
  exact absurd htwice (by decide)

end Results

end Smocket.Collect
