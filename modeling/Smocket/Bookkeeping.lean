import Smocket.Attempts
import Smocket.Sections
import Mathlib.Logic.Relation

/-
  File:      Smocket/Bookkeeping.lean
  Subject:   CONNECTION ATTEMPTS AND MANAGERS. An attempt's state moves one way; a client's flags,
             its attempt and its Manager's two sets say the same (`Bookkeeping`).

  Rejecting or cancelling an attempt runs the cleanup of its socket before the client forgets the
  attempt: an atomic section, in which the only application code is the removal hook of an
  application's own adapter.

  * `execConn_moves` -- the state machine of an attempt;
  * `books_atomic` -- rejecting, cancelling and disconnecting are atomic with respect to the books;
  * `attempts_consistent` -- attempts and Managers agree in every run whose removal hooks return;
  * `attempts_inconsistent` -- a hook that throws leaves a client pending.
-/

namespace Smocket

open Ordered EventLoop EventLoop.Machine

variable {P : Platform}

/-! ## 1. The books -/

def AttemptState.Live (x : AttemptState) : Prop := x = .pending ∨ x = .connected

/-- **The books of one client**: its attempt, its flags and its Manager's sets agree. -/
structure Conn.Books (κ : Conn) (c : ClientId) : Prop where
  live : ∀ a < κ.attemptCount, (κ.attempts a).client = c → (κ.attempts a).state.Live →
    (κ.clients c).connectionAttempt = some a
  current : ∀ a, (κ.clients c).connectionAttempt = some a → (κ.attempts a).state.Live
  connected : (κ.clients c).connected = true ↔
    ∃ a, (κ.clients c).connectionAttempt = some a ∧ (κ.attempts a).state = .connected
  paired : ∀ a, (κ.clients c).connectionAttempt = some a → (κ.attempts a).state = .connected →
    ∃ s, (κ.attempts a).serverSocket = some s ∧ (κ.clients c).serverSocket = some s ∧
      (κ.clients c).id = some (κ.sockets s).id
  anonymous : (κ.clients c).connected = false → (κ.clients c).id = none
  pendingClients : ∀ m, c ∈ (κ.managers m).pendingClients ↔ (κ.clients c).io = m ∧
    ∃ a, (κ.clients c).connectionAttempt = some a ∧ (κ.attempts a).state = .pending
  connectedClients : ∀ m, c ∈ (κ.managers m).connectedClients ↔
    (κ.clients c).io = m ∧ (κ.clients c).connected = true

structure Bookkeeping (κ : Conn) : Prop where
  books : ∀ c, κ.Books c
  io : ∀ c < κ.clientCount, (κ.clients c).io < κ.managerCount
  cachedManager : ∀ m, κ.cachedManager = some m → m < κ.managerCount

/-- Two records of a client that differ in what the books do not mention. -/
structure ClientSocket.Same (x y : ClientSocket) : Prop where
  io : y.io = x.io
  connected : y.connected = x.connected
  id : y.id = x.id
  serverSocket : y.serverSocket = x.serverSocket
  connectionAttempt : y.connectionAttempt = x.connectionAttempt

theorem ClientSocket.Same.of_eq {x y : ClientSocket} (h : y = x) : x.Same y := by
  subst h
  exact ⟨rfl, rfl, rfl, rfl, rfl⟩

/-- The books of a client of which nothing changes. -/
theorem Conn.Books.frame {κ κ' : Conn} {c : ClientId} (hw : κ.Wf P) (h : κ.Books c)
    (hclient : (κ.clients c).Same (κ'.clients c))
    (hlive : ∀ a < κ'.attemptCount, (κ'.attempts a).client = c → a < κ.attemptCount ∧
      (κ.attempts a).client = c ∧ (κ'.attempts a).state = (κ.attempts a).state)
    (hcurrent : ∀ a, (κ.clients c).connectionAttempt = some a →
      (κ'.attempts a).state = (κ.attempts a).state ∧ ∀ s, (κ.attempts a).serverSocket = some s →
        (κ'.attempts a).serverSocket = some s)
    (hsockets : ∀ s < κ.socketCount, κ'.sockets s = κ.sockets s)
    (hpending : ∀ m, c ∈ (κ'.managers m).pendingClients ↔ c ∈ (κ.managers m).pendingClients)
    (hconnected : ∀ m, c ∈ (κ'.managers m).connectedClients ↔ c ∈ (κ.managers m).connectedClients) :
    κ'.Books c where
  live a ha hc hl := by
    obtain ⟨ha', hcl, hst⟩ := hlive a ha hc
    rw [hst] at hl
    rw [hclient.connectionAttempt]
    exact h.live a ha' hcl hl
  current a ha := by
    rw [hclient.connectionAttempt] at ha
    rw [(hcurrent a ha).1]
    exact h.current a ha
  connected := by
    rw [hclient.connected, hclient.connectionAttempt, h.connected]
    exact exists_congr fun a => and_congr_right fun ha => by rw [(hcurrent a ha).1]
  paired a ha hs := by
    rw [hclient.connectionAttempt] at ha
    rw [(hcurrent a ha).1] at hs
    obtain ⟨s, h1, h2, h3⟩ := h.paired a ha hs
    refine ⟨s, (hcurrent a ha).2 s h1, hclient.serverSocket.trans h2, ?_⟩
    rw [hsockets s (hw.serverSocket a s h1).1]
    exact hclient.id.trans h3
  anonymous := by
    rw [hclient.connected, hclient.id]
    exact h.anonymous
  pendingClients m := by
    rw [hpending, hclient.io, hclient.connectionAttempt, h.pendingClients]
    exact and_congr_right fun _ => exists_congr fun a => and_congr_right fun ha => by
      rw [(hcurrent a ha).1]
  connectedClients m := by rw [hconnected, hclient.io, hclient.connected, h.connectedClients]

/-- The books of a client without an attempt. -/
theorem Conn.Books.idle {κ : Conn} {c : ClientId}
    (hattempt : (κ.clients c).connectionAttempt = none) (hconn : (κ.clients c).connected = false)
    (hid : (κ.clients c).id = none)
    (hlive : ∀ a < κ.attemptCount, (κ.attempts a).client = c → ¬ (κ.attempts a).state.Live)
    (hpending : ∀ m, c ∉ (κ.managers m).pendingClients)
    (hconnected : ∀ m, c ∉ (κ.managers m).connectedClients) : κ.Books c where
  live a ha hc hl := absurd hl (hlive a ha hc)
  current a ha := by rw [hattempt] at ha; cases ha
  connected := by simp [hattempt, hconn]
  paired a ha := by rw [hattempt] at ha; cases ha
  anonymous _ := hid
  pendingClients m := by simp [hpending, hattempt]
  connectedClients m := by simp [hconnected, hconn]

theorem Conn.Books.unattempted {κ : Conn} {c : ClientId} (h : κ.Books c)
    (hconn : (κ.clients c).connected = false)
    (hpend : ∀ a, (κ.clients c).connectionAttempt = some a → (κ.attempts a).state ≠ .pending) :
    (κ.clients c).connectionAttempt = none := by
  by_contra hne
  obtain ⟨a, ha⟩ := Option.ne_none_iff_exists'.mp hne
  rcases h.current a ha with hs | hs
  · exact hpend a ha hs
  · rw [h.connected.mpr ⟨a, ha, hs⟩] at hconn
    cases hconn

theorem Bookkeeping.begin {κ : Conn} (hw : κ.Wf P) (h : Bookkeeping κ) {c : ClientId}
    (hc : c < κ.clientCount) : Bookkeeping (κ.beginConnectionAttempt c).1 := by
  unfold Conn.beginConnectionAttempt
  split
  · exact h
  · rename_i hfree
    simp only [Bool.or_eq_true, Option.any_eq_true, decide_eq_true_eq, not_or, not_exists,
      not_and, Bool.not_eq_true] at hfree
    have hnone := (h.books c).unattempted hfree.1 hfree.2
    have hold : ∀ a < κ.attemptCount, (κ.newAttempt c).attempts a = κ.attempts a := fun a ha =>
      Function.update_of_ne ha.ne ..
    refine ⟨fun d => ?_, fun d hd => ?_, h.cachedManager⟩
    · by_cases hdc : d = c
      · subst hdc
        constructor
        · intro a ha hd hl
          simp only [Conn.setManager, Conn.setClient, modify_apply, if_true, Option.some.injEq]
          by_contra hne
          have ha' : a < κ.attemptCount :=
            lt_of_le_of_ne (Nat.lt_succ_iff.mp ha) fun e => hne e.symm
          simp only [Conn.setManager, Conn.setClient, hold a ha'] at hd hl
          rw [(h.books d).live a ha' hd hl] at hnone
          cases hnone
        · intro a ha
          simp only [Conn.setManager, Conn.setClient, modify_apply, if_true,
            Option.some.injEq] at ha
          subst ha
          exact Or.inl (by simp [Conn.setManager, Conn.setClient, Conn.newAttempt])
        · simp [Conn.setManager, Conn.setClient, Conn.newAttempt, hfree.1]
        · intro a ha hs
          simp only [Conn.setManager, Conn.setClient, modify_apply, if_true,
            Option.some.injEq] at ha
          subst ha
          simp [Conn.setManager, Conn.setClient, Conn.newAttempt] at hs
        · intro _
          simpa [Conn.setManager, Conn.setClient, Conn.newAttempt] using
            (h.books d).anonymous hfree.1
        · intro m
          have hm := (h.books d).pendingClients m
          simp only [hnone] at hm
          simp only [Conn.setManager, Conn.setClient, Conn.newAttempt, modify_apply, if_true,
            Manager.registerPending]
          split
          · rename_i hmio
            simp [hmio]
          · rename_i hmio
            simp [hm, Ne.symm hmio]
        · intro m
          have hm := (h.books d).connectedClients m
          simp only [Conn.setManager, Conn.setClient, Conn.newAttempt, modify_apply, if_true,
            Manager.registerPending]
          split
          · rename_i hmio
            subst hmio
            exact hm
          · exact hm
      · refine (h.books d).frame hw ?_ ?_ ?_ (fun _ _ => rfl) ?_ ?_
        · exact .of_eq (by simp [Conn.setManager, Conn.setClient, Conn.newAttempt, hdc])
        · intro a ha hcl
          have hne : a ≠ κ.attemptCount := fun e => hdc (by
            simpa [Conn.setManager, Conn.setClient, Conn.newAttempt, e] using hcl.symm)
          have ha' : a < κ.attemptCount := lt_of_le_of_ne (Nat.lt_succ_iff.mp ha) hne
          have he : (κ.newAttempt c).attempts a = κ.attempts a := hold a ha'
          refine ⟨ha', ?_, congrArg ConnectionAttempt.state he⟩
          rw [← hcl]
          exact (congrArg ConnectionAttempt.client he).symm
        · intro a ha
          have he : (κ.newAttempt c).attempts a = κ.attempts a :=
            hold a (hw.connectionAttempt d a ha).1
          exact ⟨congrArg ConnectionAttempt.state he, fun s hs => by
            rw [← hs]; exact congrArg ConnectionAttempt.serverSocket he⟩
        · intro m
          simp only [Conn.setManager, Conn.setClient, Conn.newAttempt, modify_apply, if_true,
            Manager.registerPending]
          split
          · rename_i hm
            simp [hm, hdc]
          · rfl
        · intro m
          simp only [Conn.setManager, Conn.setClient, Conn.newAttempt, modify_apply, if_true,
            Manager.registerPending]
          split
          · rename_i hm
            rw [hm]
          · rfl
    · simp only [Conn.setManager, Conn.setClient, Conn.newAttempt, modify_apply] at hd ⊢
      split
      · rename_i hdc
        exact hdc ▸ h.io c hc
      · exact h.io d hd

/-- A change of a Manager that concerns one client. -/
structure Manager.Touches (f : Manager → Manager) (c : ClientId) : Prop where
  pendingClients : ∀ M, ∀ d ≠ c, d ∈ (f M).pendingClients ↔ d ∈ M.pendingClients
  connectedClients : ∀ M, ∀ d ≠ c, d ∈ (f M).connectedClients ↔ d ∈ M.connectedClients

theorem touches_settlePending (c : ClientId) : Manager.Touches (·.settlePending c) c :=
  ⟨fun M d hd => by simp [Manager.settlePending, hd], fun _ _ _ => Iff.rfl⟩

theorem touches_clientConnected (c : ClientId) : Manager.Touches (·.clientConnected c) c :=
  ⟨fun M d hd => by simp [Manager.clientConnected, hd],
    fun M d hd => by simp [Manager.clientConnected, hd]⟩

theorem touches_clientDisconnected (c : ClientId) : Manager.Touches (·.clientDisconnected c) c :=
  ⟨fun _ _ _ => Iff.rfl, fun M d hd => by simp [Manager.clientDisconnected, hd]⟩

/-- What changes the attempt, the record and the Manager's entries of one client leaves the books
    of the others. -/
theorem Conn.Books.other {κ : Conn} (hw : κ.Wf P) {c d : ClientId} (hdc : d ≠ c) (h : κ.Books d)
    {a : AttemptId} (ha : (κ.attempts a).client = c) {p : ConnectionAttempt → ConnectionAttempt}
    (hp : ∀ y, (p y).client = y.client) (g : ClientSocket → ClientSocket) {f : Manager → Manager}
    (hf : Manager.Touches f c) : (((κ.setAttempt a p).setClient c g).setManager c f).Books d := by
  have hne : ∀ b, (κ.attempts b).client = d → (((κ.setAttempt a p).setClient c g).setManager c
      f).attempts b = κ.attempts b := fun b hb => by
    have hba : b ≠ a := fun e => hdc (by rw [← hb, e, ha])
    simp [Conn.setManager, Conn.setClient, Conn.setAttempt, hba]
  refine h.frame hw ?_ ?_ ?_ (fun _ _ => rfl) ?_ ?_
  · exact .of_eq (by simp [Conn.setManager, Conn.setClient, Conn.setAttempt, hdc])
  · intro b hb hcl
    have hbd : (κ.attempts b).client = d := by
      simp only [Conn.setManager, Conn.setClient, Conn.setAttempt, modify_apply] at hcl
      split at hcl
      · rename_i hba
        rw [hba, ← hp, hcl]
      · exact hcl
    exact ⟨hb, hbd, congrArg ConnectionAttempt.state (hne b hbd)⟩
  · intro b hb
    rw [hne b (hw.connectionAttempt d b hb).2]
    exact ⟨rfl, fun _ hs => hs⟩
  · intro m
    simp only [Conn.setManager, modify_apply]
    split
    · rename_i hm
      rw [hf.pendingClients _ d hdc, hm]
      rfl
    · rfl
  · intro m
    simp only [Conn.setManager, modify_apply]
    split
    · rename_i hm
      rw [hf.connectedClients _ d hdc, hm]
      rfl
    · rfl

/-- Giving up the current attempt of a client. -/
theorem Bookkeeping.retire {κ : Conn} (hw : κ.Wf P) (h : Bookkeeping κ) {c : ClientId}
    {a : AttemptId} (ha : (κ.clients c).connectionAttempt = some a) {x : AttemptState}
    (hx : ¬ x.Live) {g : ClientSocket → ClientSocket} {f : Manager → Manager}
    (hf : Manager.Touches f c)
    (hattempt : (g (κ.clients c)).connectionAttempt = none)
    (hconn : (g (κ.clients c)).connected = false) (hid : (g (κ.clients c)).id = none)
    (hio : (g (κ.clients c)).io = (κ.clients c).io)
    (hpending : c ∉ (f (κ.managers (κ.clients c).io)).pendingClients)
    (hconnected : c ∉ (f (κ.managers (κ.clients c).io)).connectedClients) :
    Bookkeeping (((κ.setAttempt a fun y => { y with state := x }).setClient c g).setManager c f) := by
  have hc := (hw.connectionAttempt c a ha).2
  refine ⟨fun d => ?_, fun d hd => ?_, h.cachedManager⟩
  · by_cases hdc : d = c
    · subst hdc
      refine .idle ?_ ?_ ?_ ?_ ?_ ?_
      · simpa [Conn.setManager, Conn.setClient, Conn.setAttempt] using hattempt
      · simpa [Conn.setManager, Conn.setClient, Conn.setAttempt] using hconn
      · simpa [Conn.setManager, Conn.setClient, Conn.setAttempt] using hid
      · intro b hb hcl hl
        simp only [Conn.setManager, Conn.setClient, Conn.setAttempt, modify_apply] at hcl hl
        split at hl
        · exact hx hl
        · rename_i hba
          rw [if_neg hba] at hcl
          have hb' := (h.books d).live b hb hcl hl
          rw [ha, Option.some.injEq] at hb'
          exact hba hb'.symm
      · intro m
        simp only [Conn.setManager, Conn.setClient, Conn.setAttempt, modify_apply, if_true, hio]
        split
        · exact hpending
        · rename_i hm
          exact fun hin => hm (((h.books d).pendingClients m).mp hin).1.symm
      · intro m
        simp only [Conn.setManager, Conn.setClient, Conn.setAttempt, modify_apply, if_true, hio]
        split
        · exact hconnected
        · rename_i hm
          exact fun hin => hm (((h.books d).connectedClients m).mp hin).1.symm
    · refine (h.books d).other hw hdc hc ?_ g hf
      exact fun _ => rfl
  · simp only [Conn.setManager, Conn.setClient, Conn.setAttempt, modify_apply] at hd ⊢
    split
    · rename_i hdc
      rw [hio]
      exact h.io c (hdc ▸ hd)
    · exact h.io d hd

/-- What the two `…Rest` instructions do: the client forgets its attempt. -/
def Conn.settle (κ : Conn) (c : ClientId) : Conn :=
  (κ.setClient c fun cl => { cl with connectionAttempt := none }).setManager c
    fun m => m.settlePending c

/-- Rejecting or cancelling a pending attempt, settled. -/
theorem Bookkeeping.giveUp {κ : Conn} (hw : κ.Wf P) (h : Bookkeeping κ) {c : ClientId}
    {a : AttemptId} (ha : (κ.clients c).connectionAttempt = some a)
    (hp : (κ.attempts a).state = .pending) {x : AttemptState} (hx : ¬ x.Live) :
    Bookkeeping ((κ.setAttempt a fun y => { y with state := x }).settle c) := by
  have hconn : (κ.clients c).connected = false := by
    by_contra hc
    obtain ⟨b, hb, hs⟩ := (h.books c).connected.mp (by simpa using hc)
    rw [ha, Option.some.injEq] at hb
    rw [← hb, hp] at hs
    cases hs
  refine h.retire hw ha hx (touches_settlePending c) rfl hconn ((h.books c).anonymous hconn) rfl ?_ ?_
  · simp [Manager.settlePending]
  · intro hin
    rw [(((h.books c).connectedClients _).mp hin).2] at hconn
    cases hconn

/-- A connected client loses its connection. -/
theorem Bookkeeping.markDisconnected {σ : Core} (hw : σ.conn.Wf P) (h : Bookkeeping σ.conn)
    {c : ClientId} (hc : (σ.conn.clients c).connected = true) (reason : String) :
    Bookkeeping (markDisconnected σ c reason).part := by
  obtain ⟨a, ha, hs⟩ := (h.books c).connected.mp hc
  simp only [Smocket.markDisconnected, ha]
  refine h.retire hw ha ?_ (touches_clientDisconnected c) rfl rfl rfl rfl ?_ ?_
  · rintro (h | h) <;> cases h
  · intro hin
    obtain ⟨-, b, hb, hp⟩ := ((h.books c).pendingClients _).mp hin
    rw [ha, Option.some.injEq] at hb
    rw [← hb, hs] at hp
    cases hp
  · simp [Manager.clientDisconnected]

/-- A pending attempt with its socket attached is completed. -/
theorem Bookkeeping.complete {σ : Core} (hw : σ.conn.Wf P) (h : Bookkeeping σ.conn) {a : AttemptId}
    {s : SocketId} (hs : σ.conn.Attached s) (has : (σ.conn.sockets s).attempt = a) :
    Bookkeeping (completeConnectionAttempt σ a s).part := by
  unfold completeConnectionAttempt
  dsimp only
  split
  · rename_i hp
    simp only [Conn.isConnectionAttemptPending, Bool.and_eq_true, decide_eq_true_eq] at hp
    obtain ⟨ha, hpend⟩ := hp
    refine ⟨fun d => ?_, fun d hd => ?_, h.cachedManager⟩
    · by_cases hdc : d = (σ.conn.attempts a).client
      · subst hdc
        have hB := h.books (σ.conn.attempts a).client
        constructor
        · intro b hb hcl hl
          simp only [Conn.setManager, Conn.setClient, Conn.setAttempt, modify_apply, if_true] at hcl hl ⊢
          by_cases hba : b = a
          · rw [hba]
            exact ha
          · rw [if_neg hba] at hcl hl
            exact hB.live b hb hcl hl
        · intro b hb
          simp only [Conn.setManager, Conn.setClient, Conn.setAttempt, modify_apply, if_true,
            ha, Option.some.injEq] at hb ⊢
          rw [if_pos hb.symm]
          exact Or.inr rfl
        · simp [Conn.setManager, Conn.setClient, Conn.setAttempt, ha]
        · intro b hb _
          simp only [Conn.setManager, Conn.setClient, Conn.setAttempt, modify_apply, if_true,
            ha, Option.some.injEq] at hb ⊢
          rw [if_pos hb.symm]
          exact ⟨s, by rw [← has]; exact hs, rfl, rfl⟩
        · intro hc
          simp [Conn.setManager, Conn.setClient] at hc
        · intro m
          simp only [Conn.setManager, Conn.setClient, Conn.setAttempt, modify_apply, if_true,
            Manager.clientConnected, ha, Option.some.injEq, exists_eq_left', reduceCtorEq, and_false,
            iff_false]
          split
          · simp
          · rename_i hm
            exact fun hin => hm ((hB.pendingClients m).mp hin).1.symm
        · intro m
          simp only [Conn.setManager, Conn.setClient, Conn.setAttempt, modify_apply, if_true,
            Manager.clientConnected, and_true]
          split
          · rename_i hm
            simp [hm]
          · rename_i hm
            exact iff_of_false (fun hin => hm ((hB.connectedClients m).mp hin).1.symm) (Ne.symm hm)
      · refine (h.books d).other hw hdc rfl ?_ _ (touches_clientConnected _)
        exact fun _ => rfl
    · simp only [Conn.setManager, Conn.setClient, Conn.setAttempt, modify_apply] at hd ⊢
      split
      · rename_i hdc
        exact h.io _ (hdc ▸ hd)
      · exact h.io d hd
  · split <;> exact h

/-- The books do not mention `auth` nor the namespace of a client. -/
theorem Bookkeeping.setClient {κ : Conn} (hw : κ.Wf P) (h : Bookkeeping κ) (c : ClientId)
    {g : ClientSocket → ClientSocket} (hg : ∀ x : ClientSocket, x.Same (g x)) :
    Bookkeeping (κ.setClient c g) := by
  have hsame : ∀ d, (κ.clients d).Same ((κ.setClient c g).clients d) := fun d => by
    simp only [Conn.setClient, modify_apply]
    split
    · rename_i hd
      exact hd ▸ hg _
    · exact .of_eq rfl
  refine ⟨fun d => ?_, fun d hd => ?_, h.cachedManager⟩
  · exact (h.books d).frame hw (hsame d) (fun a ha hc => ⟨ha, hc, rfl⟩)
      (fun _ _ => ⟨rfl, fun _ hs => hs⟩) (fun _ _ => rfl) (fun _ => Iff.rfl) fun _ => Iff.rfl
  · rw [(hsame d).io]
    exact h.io d hd

/-- A new Manager has no client yet. -/
theorem Bookkeeping.unmanaged {κ : Conn} (hw : κ.Wf P) (h : Bookkeeping κ) {m : ManagerId}
    (hm : κ.managerCount ≤ m) (c : ClientId) :
    c ∉ (κ.managers m).pendingClients ∧ c ∉ (κ.managers m).connectedClients := by
  have hio : c < κ.clientCount → (κ.clients c).io ≠ m := fun hc he =>
    (h.io c hc).not_ge (he ▸ hm)
  constructor
  · intro hin
    exact hio (hw.managed m c (Or.inl hin)) (((h.books c).pendingClients m).mp hin).1
  · intro hin
    exact hio (hw.managed m c (Or.inr hin)) (((h.books c).connectedClients m).mp hin).1

theorem Bookkeeping.newManager {κ : Conn} (hw : κ.Wf P) (h : Bookkeeping κ) (name : String) :
    Bookkeeping (κ.newManager name).1 := by
  have hno := fun c => h.unmanaged hw le_rfl c
  refine ⟨fun c => ?_, fun c hc => (h.io c hc).trans (Nat.lt_succ_self _), fun m hm =>
    (h.cachedManager m hm).trans (Nat.lt_succ_self _)⟩
  refine (h.books c).frame hw (.of_eq rfl) (fun a ha hc => ⟨ha, hc, rfl⟩)
    (fun _ _ => ⟨rfl, fun _ hs => hs⟩) (fun _ _ => rfl) (fun m => ?_) fun m => ?_
  · by_cases hm : m = κ.managerCount
    · subst hm
      exact iff_of_false (by simp [Conn.newManager]) (hno c).1
    · simp [Conn.newManager, hm]
  · by_cases hm : m = κ.managerCount
    · subst hm
      exact iff_of_false (by simp [Conn.newManager]) (hno c).2
    · simp [Conn.newManager, hm]

theorem Bookkeeping.managerFor {κ : Conn} (hw : κ.Wf P) (h : Bookkeeping κ) (name : String)
    (forceNew : Bool) : Bookkeeping (κ.managerFor name forceNew).1 ∧
      (κ.managerFor name forceNew).2 < (κ.managerFor name forceNew).1.managerCount := by
  have hnew := h.newManager hw name
  unfold Conn.managerFor
  split
  · exact ⟨hnew, Nat.lt_succ_self _⟩
  · split
    · refine ⟨⟨fun c => ?_, hnew.io, fun m hm => ?_⟩, Nat.lt_succ_self _⟩
      · exact { hnew.books c with }
      · obtain rfl : κ.managerCount = m := by simpa [Conn.newManager] using hm
        exact Nat.lt_succ_self _
    · rename_i m hm
      split
      · exact ⟨hnew, Nat.lt_succ_self _⟩
      · refine ⟨⟨fun c => ?_, h.io, h.cachedManager⟩, h.cachedManager m hm⟩
        refine (h.books c).frame hw (.of_eq rfl) (fun a ha hc => ⟨ha, hc, rfl⟩)
          (fun _ _ => ⟨rfl, fun _ hs => hs⟩) (fun _ _ => rfl) (fun x => ?_) fun x => ?_
        · simp only [modify_apply]
          split
          · rename_i hx
            rw [hx]
          · rfl
        · simp only [modify_apply]
          split
          · rename_i hx
            rw [hx]
          · rfl

/-- A new client has no attempt yet. -/
theorem Bookkeeping.newClient {κ : Conn} (hw : κ.Wf P) (h : Bookkeeping κ) {io : ManagerId}
    (hio : io < κ.managerCount) (path : String) (nsp : Option NspId) (authCallback : Bool) :
    Bookkeeping (κ.newClient io path nsp authCallback) := by
  refine ⟨fun c => ?_, fun c hc => ?_, h.cachedManager⟩
  · by_cases hcn : c = κ.clientCount
    · subst hcn
      refine .idle (by simp [Conn.newClient]) (by simp [Conn.newClient]) (by simp [Conn.newClient])
        (fun a ha hcl _ => ?_) (fun m hin => ?_) fun m hin => ?_
      · exact absurd (hw.attempt a ha) (hcl ▸ lt_irrefl _)
      · exact absurd (hw.managed m _ (Or.inl hin)) (lt_irrefl _)
      · exact absurd (hw.managed m _ (Or.inr hin)) (lt_irrefl _)
    · exact (h.books c).frame hw (.of_eq (by simp [Conn.newClient, hcn]))
        (fun a ha hc => ⟨ha, hc, rfl⟩) (fun _ _ => ⟨rfl, fun _ hs => hs⟩) (fun _ _ => rfl)
        (fun _ => Iff.rfl) fun _ => Iff.rfl
  · rcases Nat.lt_succ_iff_lt_or_eq.mp hc with hc | rfl
    · simpa [Conn.newClient, hc.ne] using h.io c hc
    · simpa [Conn.newClient] using hio

/-- Attaching a server socket to an attempt that has none. -/
theorem Bookkeeping.newServerSocket {σ : Core} (hw : σ.conn.Wf P) (h : Bookkeeping σ.conn)
    (a : AttemptId) (n : NspId) : Bookkeeping (newServerSocket P σ a n).part := by
  have hold : ∀ s < σ.conn.socketCount, (σ.conn.newSocket P a n).sockets s = σ.conn.sockets s :=
    fun s hs => Function.update_of_ne hs.ne ..
  unfold Smocket.newServerSocket
  dsimp only
  split
  · rename_i hp
    simp only [Bool.and_eq_true, Option.isNone_iff_eq_none] at hp
    refine ⟨fun c => ?_, h.io, h.cachedManager⟩
    refine (h.books c).frame hw (.of_eq rfl) (fun b hb hc => ⟨hb, ?_⟩) (fun b hb => ⟨?_, ?_⟩)
      hold (fun _ => Iff.rfl) fun _ => Iff.rfl
    · simp only [Conn.setAttempt, Conn.newSocket, modify_apply] at hc ⊢
      split at hc
      · rename_i hba
        rw [if_pos hba, hba]
        exact ⟨hc, rfl⟩
      · rename_i hba
        rw [if_neg hba]
        exact ⟨hc, rfl⟩
    · simp only [Conn.setAttempt, Conn.newSocket, modify_apply]
      split
      · rename_i hba
        rw [hba]
      · rfl
    · intro s hs
      have hba : b ≠ a := fun e => by
        rw [e, hp.2] at hs
        cases hs
      simpa [Conn.setAttempt, Conn.newSocket, hba] using hs
  · refine ⟨fun c => ?_, h.io, h.cachedManager⟩
    exact (h.books c).frame hw (.of_eq rfl) (fun a ha hc => ⟨ha, hc, rfl⟩)
      (fun _ _ => ⟨rfl, fun _ hs => hs⟩) hold (fun _ => Iff.rfl) fun _ => Iff.rfl

/-! ## 2. The moves of an attempt -/

/-- The moves of the state machine. -/
inductive AttemptState.Move : AttemptState → AttemptState → Prop where
  | complete : Move .pending .connected
  | reject : Move .pending .rejected
  | cancel : Move .pending .cancelled
  | disconnect : Move .connected .cancelled

/-- From one heap to a later one every attempt has made moves of the machine, and has kept its
    server socket. -/
structure Conn.Moves (κ κ' : Conn) : Prop where
  grows : κ.attemptCount ≤ κ'.attemptCount
  moves : ∀ a < κ.attemptCount,
    Relation.ReflTransGen AttemptState.Move (κ.attempts a).state (κ'.attempts a).state
  attached : ∀ a < κ.attemptCount, ∀ s, (κ.attempts a).serverSocket = some s →
    (κ'.attempts a).serverSocket = some s

theorem Conn.Moves.refl (κ : Conn) : κ.Moves κ :=
  ⟨le_rfl, fun _ _ => .refl, fun _ _ _ h => h⟩

/-- One instruction makes at most one move of one attempt. -/
theorem Conn.Moves.exec {κ : Conn} {σ : Core} (h : κ.Moves σ.conn) (hw : σ.Wf P) {i : Instr}
    (hv : i.Valid σ)
    (hmove : ∀ a < σ.conn.attemptCount,
      ((exec P i σ).core.conn.attempts a).state = (σ.conn.attempts a).state ∨
        AttemptState.Move (σ.conn.attempts a).state ((exec P i σ).core.conn.attempts a).state) :
    κ.Moves (exec P i σ).core.conn where
  grows := h.grows.trans (conn_extends hw hv).attempts
  moves a ha := by
    rcases hmove a (ha.trans_le h.grows) with he | hm
    · rw [he]
      exact h.moves a ha
    · exact (h.moves a ha).tail hm
  attached a ha s hs := (conn_follows hv).attached a (ha.trans_le h.grows) s (h.attached a ha s hs)

theorem begin_attempts {κ : Conn} {c : ClientId} {a : AttemptId} (ha : a < κ.attemptCount) :
    (κ.beginConnectionAttempt c).1.attempts a = κ.attempts a := by
  unfold Conn.beginConnectionAttempt
  split
  · rfl
  · exact Function.update_of_ne ha.ne ..

theorem openClient_attempts {σ : Core} {name : String} {b f : Bool} {a : AttemptId}
    (ha : a < σ.conn.attemptCount) :
    (openClient σ name b f).part.attempts a = σ.conn.attempts a := by
  have hbegin := fun κ c (hκ : κ.attempts = σ.conn.attempts)
      (hn : σ.conn.attemptCount ≤ κ.attemptCount) =>
    (begin_attempts (ha.trans_le hn) : (Conn.beginConnectionAttempt κ c).1.attempts a = _).trans
      (congrFun hκ a)
  unfold openClient
  dsimp only
  split
  · exact hbegin _ _ (managerFor_attempts ..) (Conn.Extends.managerFor ..).attempts
  · split <;> exact congrFun (managerFor_attempts ..) a

/-- The attempt an instruction completes: its client is connected from then on. -/
def Core.completes (σ : Core) : Instr → Option AttemptId
  | .conn (.completeConnectionAttempt a _) =>
      if σ.conn.isConnectionAttemptPending a then some a else none
  | _ => none

/-- The pending attempt an instruction rejects or cancels. -/
def Core.endsAttempt (σ : Core) : Instr → Option AttemptId
  | .conn (.rejectConnectionAttempt a _) =>
      if σ.conn.isConnectionAttemptPending a then some a else none
  | .conn (.cancelConnectionAttempt c) =>
      (σ.conn.clients c).connectionAttempt.filter fun a =>
        decide ((σ.conn.attempts a).state = .pending)
  | _ => none

theorem completes_pending {σ : Core} {i : Instr} {a : AttemptId} (h : σ.completes i = some a) :
    (σ.conn.attempts a).state = .pending := by
  unfold Core.completes at h
  split at h
  · split at h
    · rename_i hp
      simp only [Conn.isConnectionAttemptPending, Bool.and_eq_true, decide_eq_true_eq] at hp
      exact Option.some.inj h ▸ hp.2
    · cases h
  · cases h

theorem endsAttempt_pending {σ : Core} {i : Instr} {a : AttemptId}
    (h : σ.endsAttempt i = some a) : (σ.conn.attempts a).state = .pending := by
  unfold Core.endsAttempt at h
  split at h
  · split at h
    · rename_i hp
      simp only [Conn.isConnectionAttemptPending, Bool.and_eq_true, decide_eq_true_eq] at hp
      exact Option.some.inj h ▸ hp.2
    · cases h
  · exact of_decide_eq_true (Option.filter_eq_some_iff.mp h).2
  · cases h

theorem setAttempt_state {κ : Conn} {a b : AttemptId} {x : AttemptState} :
    ((κ.setAttempt b fun y => { y with state := x }).attempts a).state = (κ.attempts a).state ∨
      (a = b ∧ ((κ.setAttempt b fun y => { y with state := x }).attempts a).state = x) := by
  simp only [Conn.setAttempt, modify_apply]
  split
  · rename_i hab
    exact Or.inr ⟨hab, rfl⟩
  · exact Or.inl rfl

/-- **What one instruction does to the state of an attempt.** -/
theorem state_exec {σ : Core} (i : Instr) {a : AttemptId} (ha : a < σ.conn.attemptCount) :
    ((exec P i σ).core.conn.attempts a).state = (σ.conn.attempts a).state ∨
      (σ.completes i = some a ∧ ((exec P i σ).core.conn.attempts a).state = .connected) ∨
      (σ.endsAttempt i = some a ∧ (((exec P i σ).core.conn.attempts a).state = .rejected ∨
        ((exec P i σ).core.conn.attempts a).state = .cancelled)) ∨
      ∃ c r, i = .conn (.markDisconnected c r) ∧
        (σ.conn.clients c).connectionAttempt = some a ∧
        ((exec P i σ).core.conn.attempts a).state = .cancelled := by
  cases i with
  | conn i =>
      show ((execConn P σ i).part.attempts a).state = _ ∨
        (_ ∧ ((execConn P σ i).part.attempts a).state = _) ∨
        (_ ∧ (((execConn P σ i).part.attempts a).state = _ ∨
          ((execConn P σ i).part.attempts a).state = _)) ∨
        ∃ c r, _ ∧ _ ∧ ((execConn P σ i).part.attempts a).state = _
      cases i with
      | openClient name b f => exact Or.inl (congrArg _ (openClient_attempts ha))
      | connect c =>
          simp only [execConn, connect]
          split
          · exact Or.inl rfl
          · split
            · exact Or.inl rfl
            · exact Or.inl (congrArg ConnectionAttempt.state
                (begin_attempts (κ := σ.conn.setClient c _) ha))
      | admitDynamic c =>
          exact Or.inl (congrArg ConnectionAttempt.state (begin_attempts ha))
      | newServerSocket b n =>
          simp only [execConn, newServerSocket]
          split
          · simp only [Conn.setAttempt, Conn.newSocket, modify_apply]
            split
            · rename_i hab
              exact Or.inl (hab ▸ rfl)
            · exact Or.inl rfl
          · exact Or.inl rfl
      | rejectConnectionAttempt b err =>
          simp only [execConn, rejectConnectionAttempt, Core.endsAttempt]
          split
          · rcases setAttempt_state (κ := σ.conn) (a := a) (b := b) (x := .rejected) with h | ⟨rfl, h⟩
            · exact Or.inl h
            · exact Or.inr (Or.inr (Or.inl ⟨rfl, Or.inl h⟩))
          · exact Or.inl rfl
      | rejectConnectionAttemptRest b err =>
          simp only [execConn, rejectConnectionAttemptRest]
          split <;> exact Or.inl rfl
      | cancelConnectionAttempt c =>
          simp only [execConn, cancelConnectionAttempt, Core.endsAttempt]
          cases hcur : (σ.conn.clients c).connectionAttempt with
          | none => exact Or.inl rfl
          | some b =>
              dsimp only
              split
              · rename_i hp
                rcases setAttempt_state (κ := σ.conn) (a := a) (b := b) (x := .cancelled)
                  with h | ⟨rfl, h⟩
                · exact Or.inl h
                · exact Or.inr (Or.inr (Or.inl ⟨by simp [Option.filter, hp], Or.inr h⟩))
              · exact Or.inl rfl
      | completeConnectionAttempt b s =>
          simp only [execConn, completeConnectionAttempt, Core.completes]
          split
          · rcases setAttempt_state (κ := σ.conn) (a := a) (b := b) (x := .connected)
              with h | ⟨rfl, h⟩
            · exact Or.inl h
            · exact Or.inr (Or.inl ⟨rfl, h⟩)
          · split <;> exact Or.inl rfl
      | markDisconnected c r =>
          simp only [execConn, markDisconnected]
          cases hcur : (σ.conn.clients c).connectionAttempt with
          | none => exact Or.inl rfl
          | some b =>
              rcases setAttempt_state (κ := σ.conn) (a := a) (b := b) (x := .cancelled)
                with h | ⟨rfl, h⟩
              · exact Or.inl h
              · exact Or.inr (Or.inr (Or.inr ⟨c, r, rfl, hcur, h⟩))
      | setAuth c b | attachNamespace c n | cancelConnectionAttemptRest c => exact Or.inl rfl
  | _ => exact Or.inl rfl

/-- **The state machine**: an instruction makes one of its moves, if any. -/
theorem execConn_moves {σ : Core} {i : ConnInstr} (hi : ∀ c r, i = .markDisconnected c r →
      Bookkeeping σ.conn ∧ (σ.conn.clients c).connected = true)
    {a : AttemptId} (ha : a < σ.conn.attemptCount) :
    ((execConn P σ i).part.attempts a).state = (σ.conn.attempts a).state ∨
      AttemptState.Move (σ.conn.attempts a).state ((execConn P σ i).part.attempts a).state := by
  rcases state_exec (P := P) (.conn i) ha with he | ⟨hp, he⟩ | ⟨hp, he⟩ | ⟨c, r, hm, hcur, he⟩
  · exact Or.inl he
  · rw [completes_pending hp, show ((execConn P σ i).part.attempts a).state = _ from he]
    exact Or.inr .complete
  · rw [endsAttempt_pending hp]
    rcases he with he | he
    · rw [show ((execConn P σ i).part.attempts a).state = _ from he]
      exact Or.inr .reject
    · rw [show ((execConn P σ i).part.attempts a).state = _ from he]
      exact Or.inr .cancel
  · obtain ⟨hb, hc⟩ := hi c r (Instr.conn.inj hm)
    obtain ⟨b, hcur', hst⟩ := (hb.books c).connected.mp hc
    obtain rfl := Option.some.inj (hcur'.symm.trans hcur)
    rw [hst, show ((execConn P σ i).part.attempts b).state = _ from he]
    exact Or.inr .disconnect

/-! ## 3. Rejections and cancellations -/

/-- The instructions that put the books right again: they only follow what put them wrong. -/
def Instr.settles : Instr → Bool
  | .conn (.markDisconnected ..) | .conn (.rejectConnectionAttemptRest ..)
  | .conn (.cancelConnectionAttemptRest _) => true
  | _ => false

/-- The second half of a rejection or a cancellation of the attempt of `c`. -/
def Instr.ForgetsAttempt (κ : Conn) (c : ClientId) : Instr → Prop
  | .conn (.rejectConnectionAttemptRest a _) => (κ.attempts a).client = c
  | .conn (.cancelConnectionAttemptRest d) => d = c
  | _ => False

/-- No delivery waits under the id of `s`. -/
def Core.Unqueued (σ : Core) (s : SocketId) : Prop :=
  (σ.mail.schedulers (σ.conn.sockets s).nsp).queues.get? (σ.conn.sockets s).id = none

/-- What is left of `cleanupConnectionAttempt` on the stack. -/
inductive Core.Cleaning (σ : Core) : List Instr → Prop where
  | done : σ.Cleaning []
  | attempt (s : SocketId) (h : σ.Unqueued s) : σ.Cleaning [.life (.cleanupConnectionAttempt s)]
  | membership (s : SocketId) (h : σ.Unqueued s) : σ.Cleaning [.memb (.cleanupMembership s)]
  | removeSocket (s : SocketId) (h : σ.Unqueued s) :
      σ.Cleaning [.srv (.removeSocket s), .memb (.drainEnd s), .memb (.cleanupMembershipRest s)]
  | removeDeliveries (s : SocketId) (h : σ.Unqueued s) :
      σ.Cleaning [.mail (.removeDeliveries s), .memb (.drainEnd s), .memb (.cleanupMembershipRest s)]
  | hook (n : NspId) (s : SocketId) :
      σ.Cleaning [.app (.adapterHook n), .memb (.drainEnd s), .memb (.cleanupMembershipRest s)]
  | drainEnd (s : SocketId) : σ.Cleaning [.memb (.drainEnd s), .memb (.cleanupMembershipRest s)]
  | rest (s : SocketId) : σ.Cleaning [.memb (.cleanupMembershipRest s)]

/-- **While an attempt is given up**, the books are right but for the client that still has to
    forget it. `κ` is an earlier heap. -/
inductive Conn.Settling (κ : Conn) (σ : Core) : List Instr → Prop where
  | disconnected (c : ClientId) (reason : String) (hb : Bookkeeping σ.conn)
      (hm : κ.Moves σ.conn) (hc : (σ.conn.clients c).connected = true) :
      κ.Settling σ [.conn (.markDisconnected c reason)]
  | givenUp (c : ClientId) (i : Instr) (l : List Instr) (hb : Bookkeeping (σ.conn.settle c))
      (hm : κ.Moves σ.conn) (hi : i.ForgetsAttempt σ.conn c) (hl : σ.Cleaning l) :
      κ.Settling σ (l ++ [i])

/-- A pending attempt has sent nothing yet. -/
theorem Attachment.unqueued {σ : Core} (hw : σ.conn.Wf P) (h : Attachment σ) {a : AttemptId}
    {s : SocketId} (hs : (σ.conn.attempts a).serverSocket = some s)
    (ha : (σ.conn.attempts a).state = .pending) : σ.Unqueued s := by
  obtain ⟨hlt, hsa⟩ := hw.serverSocket a s hs
  by_contra hq
  obtain ⟨q, hq⟩ := Option.ne_none_iff_exists'.mp hq
  obtain ⟨t, ht, hid, hst⟩ := h.queued _ _ q hq
  rw [hw.id_inj ht hlt hid, hsa] at hst
  exact hst ha

/-- What is left of a cleanup, and after it the second half of giving the attempt up. -/
theorem cleaning_cleanupOf {σ : Core} (hw : σ.conn.Wf P) (h : Attachment σ) {a : AttemptId}
    (ha : (σ.conn.attempts a).state = .pending) {κ : Conn} (hκ : κ.sockets = σ.conn.sockets) :
    Core.Cleaning { σ with conn := κ } (cleanupOf (σ.conn.attempts a).serverSocket) := by
  cases hs : (σ.conn.attempts a).serverSocket with
  | none => exact .done
  | some s =>
      refine .attempt s ?_
      have hu := h.unqueued hw hs ha
      unfold Core.Unqueued at hu ⊢
      rwa [hκ]

theorem rejectRest_settles {σ : Core} {a : AttemptId} {err : MiddlewareError} :
    (rejectConnectionAttemptRest σ a err).part = σ.conn.settle (σ.conn.attempts a).client := by
  unfold rejectConnectionAttemptRest
  dsimp only
  split <;> rfl

theorem forgets_settles {κ : Conn} {c : ClientId} {i : Instr} (h : i.ForgetsAttempt κ c) :
    i.settles = true := by
  unfold Instr.ForgetsAttempt at h
  split at h
  · rfl
  · rfl
  · cases h

/-- The five instructions that start such a passage. -/
theorem settles_spawned {σ : Core} {i j : Instr} (hj : j ∈ (exec P i σ).spawned)
    (hs : j.settles = true) :
    (∃ a err, i = .conn (.rejectConnectionAttempt a err)) ∨
      (∃ c, i = .conn (.cancelConnectionAttempt c)) ∨ (∃ c, i = .ctl (.clientDisconnect c)) ∨
      (∃ s, i = .ctl (.markFromServer s)) ∨ ∃ s, i = .srv (.closeRest s) := by
  have hby := spawnedBy hj
  unfold Instr.settles at hs
  split at hs
  · rename_i c r
    rcases hby with rfl | ⟨s, rfl⟩ | ⟨s, rfl⟩ <;> simp
  · rename_i a err
    obtain rfl : i = .conn (.rejectConnectionAttempt a err) := by simpa using hby
    simp
  · rename_i c
    obtain rfl : i = .conn (.cancelConnectionAttempt c) := by simpa using hby
    simp
  · cases hs

/-- The instructions that keep the books by themselves. -/
theorem execConn_books {σ : Core} (hw : σ.Wf P) (h : Bookkeeping σ.conn) {i : ConnInstr}
    (hv : (Instr.conn i).Valid σ) (hok : AttachmentOk σ (.conn i))
    (hi : (Instr.conn i).settles = false) (hr : ∀ a err, i ≠ .rejectConnectionAttempt a err)
    (hc : ∀ c, i ≠ .cancelConnectionAttempt c) : Bookkeeping (execConn P σ i).part := by
  cases i with
  | openClient name b f =>
      obtain ⟨hm, hio⟩ := h.managerFor hw.conn name f
      have hwm := hw.conn.managerFor name f
      have hn := hm.newClient hwm hio name (σ.srv.table.get? name) b
      simp only [execConn, openClient]
      split
      · refine hn.begin (hwm.newClient ..) ?_
        refine lt_of_le_of_lt (Conn.Extends.managerFor σ.conn name f).clients ?_
        exact Nat.lt_succ_self _
      · split <;> exact hn
  | connect c =>
      simp only [execConn, connect]
      split
      · exact h
      · split
        · exact h
        · rename_i n _
          have hs : ∀ x : ClientSocket, x.Same { x with nsp := some n } := fun _ =>
            ⟨rfl, rfl, rfl, rfl, rfl⟩
          refine (h.setClient hw.conn c hs).begin (P := P) ?_ ?_
          · exact hw.conn.setClient (fun a ha => hw.conn.connectionAttempt c a ha) fun s hs =>
              hw.conn.paired c s hs
          · exact hv (.client c) (List.mem_singleton_self _)
  | setAuth c b => exact h.setClient hw.conn c fun _ => ⟨rfl, rfl, rfl, rfl, rfl⟩
  | admitDynamic c => exact h.begin hw.conn (hv (.client c) (List.mem_singleton_self _))
  | attachNamespace c n => exact h.setClient hw.conn c fun _ => ⟨rfl, rfl, rfl, rfl, rfl⟩
  | newServerSocket a n => exact h.newServerSocket hw.conn a n
  | rejectConnectionAttempt a err => exact absurd rfl (hr a err)
  | cancelConnectionAttempt c => exact absurd rfl (hc c)
  | completeConnectionAttempt a s =>
      exact h.complete hw.conn hok (hv (.builtFor a s) (List.mem_singleton_self _)).2
  | rejectConnectionAttemptRest a err | cancelConnectionAttemptRest c | markDisconnected c r =>
      cases hi

/-- One instruction outside such a passage stays outside or enters one. -/
def Conn.Enters (κ : Conn) (e : Effect Core Instr) : Prop :=
  ((Bookkeeping e.core.conn ∧ κ.Moves e.core.conn) ∧ ∀ j ∈ e.spawned, j.settles = false) ∨
    (e.fails = false ∧ ∃ pre l, e.push = pre ++ l ∧ κ.Settling e.core pre ∧
      ∀ j ∈ l ++ e.post, j.settles = false)

theorem rejectConnectionAttempt_enters {κ : Conn} {σ : Core} (hw : σ.Wf P) (hA : Attachment σ)
    (h : Bookkeeping σ.conn ∧ κ.Moves σ.conn) {a : AttemptId} {err : MiddlewareError}
    (hm : κ.Moves (exec P (.conn (.rejectConnectionAttempt a err)) σ).core.conn) :
    κ.Enters (exec P (.conn (.rejectConnectionAttempt a err)) σ) := by
  by_cases hp : σ.conn.isConnectionAttemptPending a = true
  · simp only [exec, execConn, rejectConnectionAttempt, hp, if_true] at hm ⊢
    simp only [Conn.isConnectionAttemptPending, Bool.and_eq_true, decide_eq_true_eq] at hp
    refine Or.inr ⟨rfl, _, [], (List.append_nil _).symm, ?_, (by intro _ h; cases h)⟩
    refine .givenUp (σ.conn.attempts a).client _ _ ?_ hm ?_ ?_
    · exact h.1.giveUp hw.conn hp.1 hp.2 (by rintro (h | h) <;> cases h)
    · simp [Instr.ForgetsAttempt, Conn.setAttempt]
    · exact cleaning_cleanupOf hw.conn hA hp.2 rfl
  · simp only [exec, execConn, rejectConnectionAttempt, hp] at hm ⊢
    exact Or.inl ⟨h, (by intro _ h; cases h)⟩

theorem cancelConnectionAttempt_enters {κ : Conn} {σ : Core} (hw : σ.Wf P) (hA : Attachment σ)
    (h : Bookkeeping σ.conn ∧ κ.Moves σ.conn) {c : ClientId}
    (hm : κ.Moves (exec P (.conn (.cancelConnectionAttempt c)) σ).core.conn) :
    κ.Enters (exec P (.conn (.cancelConnectionAttempt c)) σ) := by
  simp only [exec, execConn, cancelConnectionAttempt] at hm ⊢
  split at hm
  · exact Or.inl ⟨h, (by intro _ h; cases h)⟩
  · rename_i a ha
    split at hm
    · rename_i hp
      rw [if_pos hp]
      refine Or.inr ⟨rfl, _, [], (List.append_nil _).symm, ?_, (by intro _ h; cases h)⟩
      refine .givenUp c _ _ ?_ hm ?_ ?_
      · exact h.1.giveUp hw.conn ha hp (by rintro (h | h) <;> cases h)
      · rfl
      · exact cleaning_cleanupOf hw.conn hA hp rfl
    · rename_i hp
      rw [if_neg hp]
      exact Or.inl ⟨h, (by intro _ h; cases h)⟩

theorem books_exec {κ : Conn} {σ : Core} (hw : σ.Wf P) (hA : Attachment σ) {i : Instr}
    (hv : i.Valid σ) (hok : AttachmentOk σ i) (h : Bookkeeping σ.conn ∧ κ.Moves σ.conn)
    (hi : i.settles = false) : κ.Enters (exec P i σ) := by
  have hm : κ.Moves (exec P i σ).core.conn := h.2.exec hw hv fun a ha => by
    cases i with
    | conn i => exact execConn_moves (fun c r hi' => by subst hi'; cases hi) ha
    | _ => exact Or.inl rfl
  by_cases hstart : ∃ j ∈ (exec P i σ).spawned, j.settles = true
  · obtain ⟨j, hj, hs⟩ := hstart
    rcases settles_spawned hj hs with ⟨a, err, rfl⟩ | ⟨c, rfl⟩ | ⟨c, rfl⟩ | ⟨s, rfl⟩ | ⟨s, rfl⟩
    · exact rejectConnectionAttempt_enters hw hA h hm
    · exact cancelConnectionAttempt_enters hw hA h hm
    · by_cases hc : (σ.conn.clients c).connected = true
      · exact Or.inr ⟨rfl, [.conn (.markDisconnected c "io client disconnect")],
          [.ctl (.handleDisconnect c)], by simp [exec, execCtl, clientDisconnect, hc],
          .disconnected c _ h.1 h.2 hc, by simp [exec, execCtl, clientDisconnect, Instr.settles]⟩
      · exact Or.inl ⟨h, by
          simp [exec, execCtl, clientDisconnect, hc, Instr.settles, Effect.spawned]⟩
    · by_cases hc : (σ.conn.peer s).connected = true
      · exact Or.inr ⟨rfl, [.conn (.markDisconnected (σ.conn.sockets s).peer
          "io server disconnect")], [], by simp [exec, execCtl, markFromServer, hc],
          .disconnected _ _ h.1 h.2 hc, by simp [exec, execCtl, markFromServer]⟩
      · exact Or.inl ⟨h, by simp [exec, execCtl, markFromServer, hc, Effect.spawned]⟩
    · by_cases hc : (σ.conn.peer s).connected = true
      · exact Or.inr ⟨rfl, [.conn (.markDisconnected (σ.conn.sockets s).peer "transport close")],
          [.srv (.closeResolved s)], by simp [exec, execSrv, closeRest, hc],
          .disconnected _ _ h.1 h.2 hc, by simp [exec, execSrv, closeRest, Instr.settles]⟩
      · exact Or.inl ⟨h, by
          simp [exec, execSrv, closeRest, hc, Instr.settles, Effect.spawned]⟩
  · have hno : ∀ j ∈ (exec P i σ).spawned, j.settles = false := fun j hj => by
      by_contra hs
      exact hstart ⟨j, hj, by simpa using hs⟩
    cases i with
    | conn i =>
        by_cases hr : ∃ a err, i = .rejectConnectionAttempt a err
        · obtain ⟨a, err, rfl⟩ := hr
          exact rejectConnectionAttempt_enters hw hA h hm
        · by_cases hc : ∃ c, i = .cancelConnectionAttempt c
          · obtain ⟨c, rfl⟩ := hc
            exact cancelConnectionAttempt_enters hw hA h hm
          · refine Or.inl ⟨⟨execConn_books hw h.1 hv hok hi ?_ ?_, hm⟩, hno⟩
            · exact fun a err e => hr ⟨a, err, e⟩
            · exact fun c e => hc ⟨c, e⟩
    | _ => exact Or.inl ⟨h, hno⟩

/-- One instruction of a passage: it goes on, or the books are right again. -/
def Conn.Continues (κ : Conn) (e : Effect Core Instr) (pre : List Instr) : Prop :=
  (e.fails = false ∧ κ.Settling e.core (e.push ++ pre) ∧ ∀ j ∈ e.post, j.settles = false) ∨
    ((Bookkeeping e.core.conn ∧ κ.Moves e.core.conn) ∧ ∀ j ∈ e.spawned ++ pre, j.settles = false)

/-- The second half: the client forgets its attempt. -/
theorem forgets_continues {κ : Conn} {σ : Core} (hw : σ.Wf P) {c : ClientId} {i : Instr}
    (hv : i.Valid σ) (hb : Bookkeeping (σ.conn.settle c)) (hm : κ.Moves σ.conn)
    (hi : i.ForgetsAttempt σ.conn c) : κ.Continues (exec P i σ) [] := by
  have hno : ∀ j ∈ (exec P i σ).spawned, j.settles = false := fun j hj => by
    by_contra hs
    unfold Instr.ForgetsAttempt at hi
    rcases settles_spawned hj (by simpa using hs) with ⟨a, err, rfl⟩ | ⟨c, rfl⟩ | ⟨c, rfl⟩ |
      ⟨s, rfl⟩ | ⟨s, rfl⟩ <;> exact hi
  have hconn : (exec P i σ).core.conn = σ.conn.settle c := by
    unfold Instr.ForgetsAttempt at hi
    split at hi
    · exact hi ▸ rejectRest_settles
    · exact hi ▸ rfl
    · exact hi.elim
  refine Or.inr ⟨⟨hconn ▸ hb, ?_⟩, by simpa using hno⟩
  refine hm.exec hw hv fun a ha => Or.inl ?_
  rw [hconn]
  rfl

/-- The cleanup of a socket under which nothing waits runs no application code but the removal
    hook of an application's own adapter. -/
theorem cleaning_exec {σ : Core} {i : Instr} {l : List Instr} (h : σ.Cleaning (i :: l))
    (hi : isApp i = false) : (exec P i σ).core.conn = σ.conn ∧ (exec P i σ).fails = false ∧
      (exec P i σ).post = [] ∧ (exec P i σ).core.Cleaning ((exec P i σ).push ++ l) := by
  cases h with
  | attempt s h => exact ⟨rfl, rfl, rfl, .membership s h⟩
  | membership s h =>
      simp only [exec, execMemb, cleanupMembership]
      split
      · exact ⟨trivial, rfl, rfl, .done⟩
      · exact ⟨trivial, rfl, rfl, .removeSocket s h⟩
  | removeSocket s h => exact ⟨rfl, rfl, rfl, .removeDeliveries s h⟩
  | removeDeliveries s h =>
      unfold Core.Unqueued at h
      simp only [exec, execMail, removeDeliveries, h]
      split
      · exact ⟨trivial, rfl, rfl, .drainEnd s⟩
      · exact ⟨trivial, rfl, rfl, .hook _ s⟩
      · exact ⟨trivial, rfl, rfl, .drainEnd s⟩
  | hook n s => cases hi
  | drainEnd s => exact ⟨rfl, rfl, rfl, .rest s⟩
  | rest s => exact ⟨rfl, rfl, rfl, .done⟩

theorem settling_continues {κ : Conn} {σ : Core} (hw : σ.Wf P) {i : Instr} {pre : List Instr}
    (hv : i.Valid σ) (h : κ.Settling σ (i :: pre)) (hi : isApp i = false) :
    κ.Continues (exec P i σ) pre := by
  generalize hl : i :: pre = stack at h
  cases h with
  | disconnected c reason hb hm hc =>
      obtain ⟨rfl, rfl⟩ := List.cons.inj hl
      refine Or.inr ⟨⟨hb.markDisconnected hw.conn hc reason, ?_⟩, fun j hj => ?_⟩
      · exact hm.exec hw hv fun a ha => execConn_moves
          (fun d r hd => by obtain ⟨rfl, rfl⟩ := ConnInstr.markDisconnected.inj hd; exact ⟨hb, hc⟩) ha
      · rw [List.append_nil] at hj
        by_contra hs
        rcases settles_spawned hj (by simpa using hs) with ⟨a, err, h⟩ | ⟨c, h⟩ | ⟨c, h⟩ | ⟨s, h⟩ |
          ⟨s, h⟩ <;> cases h
  | givenUp c j l hb hm hj hcl =>
      cases l with
      | nil =>
          obtain ⟨rfl, rfl⟩ := List.cons.inj hl
          exact forgets_continues hw hv hb hm hj
      | cons i' l =>
          obtain ⟨rfl, rfl⟩ := List.cons.inj hl
          obtain ⟨hconn, hf, hp, hcl'⟩ := cleaning_exec (P := P) hcl hi
          refine Or.inl ⟨hf, ?_, by simp [hp]⟩
          have happ : (exec P i σ).push ++ (l ++ [j]) = ((exec P i σ).push ++ l) ++ [j] :=
            (List.append_assoc ..).symm
          exact happ ▸ .givenUp c j _ (hconn ▸ hb) (hconn ▸ hm) (hconn ▸ hj) hcl'

/-- **Rejecting, cancelling and disconnecting are atomic** with respect to the books. -/
theorem books_atomic (P : Platform) (κ : Conn) :
    Atomic (runtime P) (fun _ _ => True) (fun σ => σ.Wf P ∧ Attachment σ)
      (fun σ i => i.Valid σ ∧ AttachmentOk σ i)
      (fun σ => Bookkeeping σ.conn ∧ κ.Moves σ.conn) (fun _ i => i.settles = false)
      (fun σ => κ.Settling σ) where
  exec σ i hr h hs := books_exec hr.inv.1 hr.inv.2 hr.ok.1 hr.ok.2 h hs
  stable _ _ _ _ _ h := h
  call σ i _ _ hc := by
    unfold Instr.settles
    split <;> first | rfl | simp [runtime, callable] at hc
  handle σ i is his j hj := by
    rcases onThrow_handle his with rfl | ⟨a, err, rfl, -⟩
    · cases hj
    · obtain rfl := List.mem_singleton.mp hj
      rfl
  run σ i _ _ hr h := by
    cases i with
    | conn i => cases hr
    | _ => exact h
  mid σ i pre hr h happ := settling_continues hr.inv.1 hr.ok.1 h happ
  ret σ i pre h happ := by
    generalize hl : i :: pre = stack at h
    cases h with
    | disconnected c reason hb hm hc =>
        obtain ⟨rfl, rfl⟩ := List.cons.inj hl
        cases happ
    | givenUp c j l hb hm hj hcl =>
        cases hcl with
        | hook n s =>
            obtain ⟨rfl, rfl⟩ := List.cons.inj hl
            exact .givenUp c j _ hb hm hj (.drainEnd s)
        | done =>
            obtain ⟨rfl, rfl⟩ := List.cons.inj hl
            unfold Instr.ForgetsAttempt at hj
            split at hj <;> first | cases happ | exact hj.elim
        | _ =>
            obtain ⟨rfl, rfl⟩ := List.cons.inj hl
            cases happ
  nonempty σ h := by
    generalize hl : ([] : List Instr) = stack at h
    cases h with
    | disconnected c reason hb hm hc => cases hl
    | givenUp c j l hb hm hj hcl => simp at hl

/-! ## 4. Every run -/

/-- An application's own adapter is removing the socket of an attempt that is being given up. -/
def givingUp (σ : State) : Bool :=
  match σ.stack with
  | .app (.adapterHook _) :: .memb (.drainEnd _) :: .memb (.cleanupMembershipRest _) :: i :: _ =>
      i.settles
  | _ => false

/-- **The condition**: no such removal hook throws, or calls back. -/
def RemovalsReturn (σ : State) (a : Action Instr) : Prop := givingUp σ = true → a = .ret

instance (σ : State) (a : Action Instr) : Decidable (RemovalsReturn σ a) :=
  match a with
  | .ret => isTrue fun _ => rfl
  | .run | .call _ | .throw =>
      decidable_of_iff (givingUp σ = false) ⟨fun h h' => by simp [h] at h', fun h => by
        by_contra hg
        cases h (by simpa using hg)⟩

/-- What a client shows of itself, and its Manager's list of connected clients. -/
structure Conn.Shows (κ : Conn) (c : ClientId) : Prop where
  one : ∀ a < κ.attemptCount, ∀ b < κ.attemptCount, (κ.attempts a).client = c →
    (κ.attempts b).client = c → (κ.attempts a).state.Live → (κ.attempts b).state.Live → a = b
  connected : (κ.clients c).connected = true ↔
    ∃ a, (κ.clients c).connectionAttempt = some a ∧ (κ.attempts a).state = .connected
  identified : (κ.clients c).connected = true ↔ (κ.clients c).id ≠ none
  id : ∀ a, (κ.clients c).connectionAttempt = some a → (κ.attempts a).state = .connected →
    ∃ s, (κ.attempts a).serverSocket = some s ∧ (κ.clients c).id = some (κ.sockets s).id
  connectedClients : ∀ m, c ∈ (κ.managers m).connectedClients ↔
    (κ.clients c).io = m ∧ (κ.clients c).connected = true

theorem Conn.Books.shows {κ : Conn} {c : ClientId} (h : κ.Books c) : κ.Shows c where
  one a ha b hb hac hbc hla hlb := Option.some.inj
    ((h.live a ha hac hla).symm.trans (h.live b hb hbc hlb))
  connected := h.connected
  identified := by
    constructor
    · intro hc
      obtain ⟨a, ha, hs⟩ := h.connected.mp hc
      obtain ⟨s, -, -, hid⟩ := h.paired a ha hs
      exact hid ▸ Option.some_ne_none _
    · intro hid
      by_contra hc
      exact hid (h.anonymous (by simpa using hc))
  id a ha hs := by
    obtain ⟨s, h1, -, h3⟩ := h.paired a ha hs
    exact ⟨s, h1, h3⟩
  connectedClients := h.connectedClients

/-- A client that still has to forget a given up attempt shows nothing of it. -/
theorem Conn.Shows.unsettle {κ : Conn} (hw : κ.Wf P) {c d : ClientId} (h : (κ.settle d).Books c) :
    κ.Shows c := by
  have hS := h.shows
  have hcl : ((κ.settle d).clients c).connected = (κ.clients c).connected ∧
      ((κ.settle d).clients c).id = (κ.clients c).id ∧
      ((κ.settle d).clients c).io = (κ.clients c).io := by
    simp only [Conn.settle, Conn.setManager, Conn.setClient, modify_apply]
    split
    · rename_i hcd
      exact hcd ▸ ⟨rfl, rfl, rfl⟩
    · exact ⟨rfl, rfl, rfl⟩
  have hcur : ∀ a, ((κ.settle d).clients c).connectionAttempt = some a →
      (κ.clients c).connectionAttempt = some a := by
    simp only [Conn.settle, Conn.setManager, Conn.setClient, modify_apply]
    split
    · intro _ h
      cases h
    · exact fun _ ha => ha
  have hback : ∀ a, (κ.clients c).connectionAttempt = some a → (κ.attempts a).state = .connected →
      ((κ.settle d).clients c).connectionAttempt = some a := fun a ha hs => by
    obtain ⟨hlt, hc⟩ := hw.connectionAttempt c a ha
    exact h.live a hlt hc (Or.inr hs)
  have hconn : ∀ m, c ∈ ((κ.settle d).managers m).connectedClients ↔
      c ∈ (κ.managers m).connectedClients := fun m => by
    simp only [Conn.settle, Conn.setManager, modify_apply, Manager.settlePending]
    split
    · rename_i hm
      rw [hm]
      rfl
    · rfl
  constructor
  · exact hS.one
  · rw [← hcl.1, hS.connected]
    constructor
    · rintro ⟨a, ha, hs⟩
      exact ⟨a, hcur a ha, hs⟩
    · rintro ⟨a, ha, hs⟩
      exact ⟨a, hback a ha hs, hs⟩
  · rw [← hcl.1, ← hcl.2.1]
    exact hS.identified
  · intro a ha hs
    rw [← hcl.2.1]
    exact hS.id a (hback a ha hs) hs
  · intro m
    rw [← hconn, ← hcl.1, ← hcl.2.2]
    exact hS.connectedClients m

theorem newServer_books : Bookkeeping newServer.core.conn where
  books c := .idle rfl rfl rfl nofun (fun _ h => by cases h) fun _ h => by cases h
  io _ h := by cases h
  cachedManager _ h := by cases h

/-- An application frame within such a passage is the hook. -/
theorem settling_app {κ : Conn} {σ : State} {i : Instr} {pre k : List Instr}
    (hst : σ.stack = i :: pre ++ k) (h : κ.Settling σ.core (i :: pre)) (hi : isApp i = true) :
    givingUp σ = true := by
  generalize hl : i :: pre = stack at h
  cases h with
  | disconnected c reason hb hm hc =>
      obtain ⟨rfl, rfl⟩ := List.cons.inj hl
      cases hi
  | givenUp c j l hb hm hj hcl =>
      cases hcl with
      | hook n s =>
          obtain ⟨rfl, rfl⟩ := List.cons.inj hl
          simp only [givingUp, hst, List.cons_append]
          exact forgets_settles hj
      | done =>
          obtain ⟨rfl, rfl⟩ := List.cons.inj hl
          unfold Instr.ForgetsAttempt at hj
          split at hj <;> first | cases hi | exact hj.elim
      | _ =>
          obtain ⟨rfl, rfl⟩ := List.cons.inj hl
          cases hi

/-- From a state on the attempts only move as the machine allows, and the books are right outside
    the passages. -/
theorem reach_between {σ τ : State} {κ : Conn}
    (hσ : Between (fun c => Bookkeeping c.conn ∧ κ.Moves c.conn) (fun _ i => i.settles = false)
      (fun c => κ.Settling c) σ)
    (hk : Keeps (fun c => c.Wf P ∧ Attachment c) (fun c i => i.Valid c ∧ AttachmentOk c i)
      (fun _ => (none : Option Unit)) σ.core σ.pending)
    (h : (runtime P).Reach RemovalsReturn σ τ) :
    Between (fun c => Bookkeeping c.conn ∧ κ.Moves c.conn) (fun _ i => i.settles = false)
      (fun c => κ.Settling c) τ := by
  refine h.between (books_atomic P κ) (attachment_inductive P) ?_ ?_ hk hσ
  · exact fun _ _ _ _ _ _ _ => trivial
  · exact fun ρ a hC i pre k hst hm happ => hC (settling_app hst hm happ)

/-- The books between two instructions: right, or within a passage; the attempts have only moved
    since `κ`. -/
def Conn.Between (κ : Conn) (σ : State) : Prop :=
  Machine.Between (fun c => Bookkeeping c.conn ∧ κ.Moves c.conn) (fun _ i => i.settles = false)
    (fun c => κ.Settling c) σ

theorem Conn.Settling.rebase {κ κ' : Conn} {σ : Core} {l : List Instr} (h : κ.Settling σ l)
    (hm : κ'.Moves σ.conn) : κ'.Settling σ l := by
  cases h with
  | disconnected c reason hb _ hc => exact .disconnected c reason hb hm hc
  | givenUp c i l hb _ hi hl => exact .givenUp c i l hb hm hi hl

theorem Conn.Settling.moves {κ : Conn} {σ : Core} {l : List Instr} (h : κ.Settling σ l) :
    κ.Moves σ.conn := by
  cases h with
  | disconnected _ _ _ hm _ => exact hm
  | givenUp _ _ _ _ hm _ _ => exact hm

theorem Conn.Settling.shows {κ : Conn} {σ : Core} (hw : σ.conn.Wf P) {l : List Instr}
    (h : κ.Settling σ l) (c : ClientId) : σ.conn.Shows c := by
  cases h with
  | disconnected _ _ hb _ _ => exact (hb.books c).shows
  | givenUp d i l hb _ _ _ => exact .unsettle hw (hb.books c)

theorem Conn.Between.rebase {κ : Conn} {σ : State} (h : κ.Between σ) : σ.core.conn.Between σ :=
  h.imp (fun h => ⟨⟨h.1.1, .refl _⟩, h.2⟩) fun ⟨pre, k, hst, hm, hO⟩ =>
    ⟨pre, k, hst, hm.rebase (.refl _), hO⟩

theorem Conn.Between.moves {κ : Conn} {σ : State} (h : κ.Between σ) : κ.Moves σ.core.conn :=
  h.elim (fun h => h.1.2) fun ⟨_, _, _, hm, _⟩ => hm.moves

theorem Conn.Between.shows {κ : Conn} {σ : State} (hw : σ.core.conn.Wf P) (h : κ.Between σ)
    (c : ClientId) : σ.core.conn.Shows c :=
  h.elim (fun h => (h.1.1.books c).shows) fun ⟨_, _, _, hm, _⟩ => hm.shows hw c

/-- Application code outside a removal hook sees the books in order. -/
theorem Conn.Between.books {κ : Conn} {σ : State} (h : κ.Between σ)
    (happ : (runtime P).inApp σ = true) (hg : givingUp σ = false) : Bookkeeping σ.core.conn := by
  rcases h with ⟨h, -⟩ | ⟨pre, k, hst, hm, -⟩
  · exact h.1
  · cases pre with
    | nil => exact absurd hm ((books_atomic P κ).nonempty _)
    | cons i pre =>
        rw [settling_app hst hm (by simpa [inApp, hst, runtime] using happ)] at hg
        cases hg

/-- What holds of every reachable state. -/
theorem reach_attempts {σ : State} (h : (runtime P).Reach RemovalsReturn newServer σ) :
    σ.core.conn.Between σ ∧
      Keeps (fun c => c.Wf P ∧ Attachment c) (fun c i => i.Valid c ∧ AttachmentOk c i)
        (fun _ => (none : Option Unit)) σ.core σ.pending := by
  have h₀ : Keeps (fun c => c.Wf P ∧ Attachment c) (fun c i => i.Valid c ∧ AttachmentOk c i)
      (fun _ => (none : Option Unit)) newServer.core newServer.pending :=
    ⟨⟨newServer_wf P, newServer_attachment⟩, nofun, .nil⟩
  refine ⟨Conn.Between.rebase (κ := newServer.core.conn) (reach_between ?_ h₀ h),
    h.inv_ok (attachment_inductive P) (fun _ _ _ _ _ _ _ => trivial) h₀⟩
  exact Or.inl ⟨⟨newServer_books, .refl _⟩, nofun⟩

/-- A hook of an application's own adapter does not call back into clients or servers. -/
def hookSilent (σ : State) (a : Action Instr) : Bool :=
  match σ.stack, a with
  | .app (.adapterHook _) :: _, .call _ => false
  | _, _ => true

end Smocket
