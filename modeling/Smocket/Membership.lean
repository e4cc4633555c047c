import Smocket.Sections
import Smocket.Spawns

/-
  File:      Smocket/Membership.lean
  Subject:   ROOM MEMBERSHIP. The adapter of a namespace keeps one relation between sids and rooms
             in two indexes, and each socket keeps its own row of it. `Adapter.Mirrors` states the
             first, `MembInv` both; between the two halves of a cleanup a socket's row lags behind.

  * `Adapter.Mirrors.mem_socketsIn` -- `socketsIn` is the union of the rooms;
  * `cleanup_section` -- a cleanup is not interrupted;
  * `membership_mirrored` -- the indexes, the rows and the rosters agree in every run.
-/

namespace Smocket

open Ordered EventLoop EventLoop.Machine

variable {P : Platform}

/-! ## 1. The two indexes of an adapter -/

/-- **The two indexes are the two views of `r`**, and no room is empty. -/
structure Adapter.Mirrors (A : Adapter) (r : String → String → Prop) : Prop where
  sids : ∀ sid room, A.sids.Has sid room ↔ r sid room
  rooms : ∀ sid room, A.rooms.Has room sid ↔ r sid room
  inhabited : ∀ room members, A.rooms.get? room = some members → members.elems ≠ []

theorem Adapter.Mirrors.congr {A : Adapter} {r r' : String → String → Prop} (h : A.Mirrors r)
    (hr : ∀ sid room, r sid room ↔ r' sid room) : A.Mirrors r' where
  sids sid room := (h.sids sid room).trans (hr sid room)
  rooms sid room := (h.rooms sid room).trans (hr sid room)
  inhabited := h.inhabited

theorem Adapter.Mirrors.add {A : Adapter} {r : String → String → Prop} (h : A.Mirrors r)
    (sid room : String) :
    (A.add sid room).Mirrors fun s q => r s q ∨ (s = sid ∧ q = room) where
  sids s q := by
    rw [← h.sids s q]
    exact OMap.has_insert
  rooms s q := by
    rw [← h.rooms s q, and_comm (a := s = sid)]
    exact OMap.has_insert
  inhabited q members hq := by
    simp only [Adapter.add, OMap.get?_set] at hq
    split at hq
    · obtain rfl := Option.some.inj hq
      exact List.ne_nil_of_mem (OSet.mem_insert.mpr (Or.inr rfl))
    · exact h.inhabited q members hq

theorem Adapter.Mirrors.del {A : Adapter} {r : String → String → Prop} (h : A.Mirrors r)
    (sid room : String) :
    (A.del sid room).Mirrors fun s q => r s q ∧ ¬ (s = sid ∧ q = room) where
  sids s q := by
    rw [← h.sids s q]
    unfold Adapter.del
    dsimp only
    split
    · rename_i hnone
      refine ⟨fun hs => ⟨hs, ?_⟩, fun hs => hs.1⟩
      rintro ⟨rfl, rfl⟩
      obtain ⟨x, hx, -⟩ := hs
      rw [hnone] at hx
      cases hx
    · rename_i joined hjoined
      exact OMap.has_remove hjoined
  rooms s q := by
    rw [← h.rooms s q, and_comm (a := s = sid)]
    unfold Adapter.del
    dsimp only
    split
    · rename_i hnone
      refine ⟨fun hs => ⟨hs, ?_⟩, fun hs => hs.1⟩
      rintro ⟨rfl, rfl⟩
      obtain ⟨x, hx, -⟩ := hs
      rw [hnone] at hx
      cases hx
    · rename_i members hmembers
      split
      · rename_i hempty
        rw [OMap.has_erase]
        have hgone : ∀ x, A.rooms.Has room x → x = sid := fun x ⟨m, hm, hx⟩ => by
          obtain rfl := Option.some.inj (hm.symm.trans hmembers)
          by_contra hne
          exact OSet.isEmpty_iff.mp hempty x (OSet.mem_erase.mpr ⟨hx, hne⟩)
        constructor
        · exact fun ⟨h1, h2⟩ => ⟨h2, fun h3 => h1 h3.1⟩
        · exact fun ⟨h1, h2⟩ => ⟨fun h3 => h2 ⟨h3, hgone s (h3 ▸ h1)⟩, h1⟩
      · exact OMap.has_remove hmembers
  inhabited q members hq := by
    simp only [Adapter.del] at hq
    split at hq
    · exact h.inhabited q members hq
    · rename_i m hm
      split at hq
      · rw [OMap.get?_erase] at hq
        split at hq
        · cases hq
        · exact h.inhabited q members hq
      · rename_i hne
        rw [OMap.get?_set] at hq
        split at hq
        · obtain rfl := Option.some.inj hq
          simpa using hne
        · exact h.inhabited q members hq

/-- `del` makes no sid known. -/
theorem Adapter.del_known {A : Adapter} {sid room s : String}
    (h : (A.del sid room).sids.get? s ≠ none) : A.sids.get? s ≠ none := by
  simp only [Adapter.del] at h
  split at h
  · exact h
  · rename_i joined hj
    rw [OMap.get?_set] at h
    split at h
    · rename_i hs
      rw [hs, hj]
      simp
    · exact h

theorem Adapter.delAll_known {sid s : String} :
    ∀ {rooms : List String} {A : Adapter},
      (rooms.foldl (fun A room => A.del sid room) A).sids.get? s ≠ none → A.sids.get? s ≠ none
  | [], _, h => h
  | _ :: rooms, _, h => Adapter.del_known (@Adapter.delAll_known _ _ rooms _ h)

/-- Deleting a list of rooms. -/
theorem Adapter.Mirrors.delAll {sid : String} :
    ∀ {rooms : List String} {A : Adapter} {r : String → String → Prop}, A.Mirrors r →
      (rooms.foldl (fun A room => A.del sid room) A).Mirrors fun s q =>
        r s q ∧ ¬ (s = sid ∧ q ∈ rooms)
  | [], _, _, h => h.congr fun s q => by simp
  | room :: rooms, A, r, h => by
      refine (Adapter.Mirrors.delAll (h.del sid room)).congr fun s q => ?_
      simp only [List.mem_cons]
      tauto

/-- Forgetting a sid without rooms. -/
theorem Adapter.Mirrors.forget {A : Adapter} {r : String → String → Prop} (h : A.Mirrors r)
    {sid : String} (hsid : ∀ room, ¬ r sid room) :
    ({ A with sids := A.sids.erase sid } : Adapter).Mirrors r where
  sids s q := by
    rw [OMap.has_erase, h.sids]
    exact ⟨fun h => h.2, fun hr => ⟨fun e => hsid q (e ▸ hr), hr⟩⟩
  rooms := h.rooms
  inhabited := h.inhabited

/-- **`socketsIn` is the union of the rooms.** -/
theorem Adapter.Mirrors.mem_socketsIn {A : Adapter} {r : String → String → Prop} (h : A.Mirrors r)
    {rooms : OSet String} {sid : String} :
    sid ∈ A.socketsIn rooms ↔ ∃ room ∈ rooms, r sid room := by
  have hfold : ∀ (l : List String) (acc : OSet String),
      sid ∈ l.foldl (fun sids room =>
        ((A.rooms.get? room).getD .empty).elems.foldl OSet.insert sids) acc ↔
      sid ∈ acc ∨ ∃ room ∈ l, r sid room := by
    intro l
    induction l with
    | nil => simp
    | cons room l ih =>
        intro acc
        have hroom : sid ∈ ((A.rooms.get? room).getD .empty).elems ↔ r sid room :=
          OMap.has_iff.symm.trans (h.rooms sid room)
        rw [List.foldl_cons, ih, OSet.mem_foldl_insert, hroom]
        simp only [List.mem_cons, exists_eq_or_imp]
        tauto
  exact (hfold _ _).trans (by rw [or_iff_right (OSet.not_mem_empty sid)]; exact Iff.rfl)

/-! ## 2. The sockets' own rows -/

/-- Socket `s` lives in namespace `n` under `sid`, has not been cleaned up, and is in `room`. -/
def Memb.Joined (κ : Conn) (μ : Memb) (n : NspId) (sid room : String) : Prop :=
  ∃ s < κ.socketCount, (κ.sockets s).nsp = n ∧ (κ.sockets s).id = sid ∧
    (μ.sockets s).membershipCleaned = false ∧ room ∈ (μ.sockets s).rooms

/-- **The membership invariant**: each adapter mirrors the rows of the living sockets of its
    namespace and knows no other sid. -/
structure MembInv (κ : Conn) (μ : Memb) : Prop where
  mirrors : ∀ n, (μ.adapters n).Mirrors (μ.Joined κ n)
  known : ∀ n sid, (μ.adapters n).sids.get? sid ≠ none → ∃ s < κ.socketCount,
    (κ.sockets s).nsp = n ∧ (κ.sockets s).id = sid ∧ (μ.sockets s).membershipCleaned = false
  refuses : ∀ s, (μ.sockets s).membershipCleaned = true → (μ.sockets s).acceptsRoomJoins = false
  unborn : ∀ s, κ.socketCount ≤ s → (μ.sockets s).membershipCleaned = false ∧
    ∀ room, room ∉ (μ.sockets s).rooms

/-- New sockets have joined nothing. -/
theorem MembInv.grow {κ κ' : Conn} {μ : Memb} (h : MembInv κ μ) (hE : κ.Extends κ') :
    MembInv κ' μ := by
  have hold : ∀ s n sid room, s < κ'.socketCount → (κ'.sockets s).nsp = n →
      (κ'.sockets s).id = sid → room ∈ (μ.sockets s).rooms →
      s < κ.socketCount ∧ (κ.sockets s).nsp = n ∧ (κ.sockets s).id = sid := by
    intro s n sid room _ hn hid hr
    have hs : s < κ.socketCount := by
      by_contra hs
      exact (h.unborn s (Nat.le_of_not_lt hs)).2 room hr
    rw [hE.socketOf s hs] at hn hid
    exact ⟨hs, hn, hid⟩
  refine ⟨fun n => (h.mirrors n).congr fun sid room => ⟨?_, ?_⟩, fun n sid hsid => ?_, h.refuses,
    fun s hs => h.unborn s (hE.sockets.trans hs)⟩
  · rintro ⟨s, hs, hn, hid, hc, hr⟩
    exact ⟨s, hs.trans_le hE.sockets, (hE.socketOf s hs).symm ▸ hn, (hE.socketOf s hs).symm ▸ hid,
      hc, hr⟩
  · rintro ⟨s, hs, hn, hid, hc, hr⟩
    obtain ⟨h1, h2, h3⟩ := hold s n sid room hs hn hid hr
    exact ⟨s, h1, h2, h3, hc, hr⟩
  · obtain ⟨s, hs, hn, hid, hc⟩ := h.known n sid hsid
    exact ⟨s, hs.trans_le hE.sockets, (hE.socketOf s hs).symm ▸ hn, (hE.socketOf s hs).symm ▸ hid, hc⟩

/-- The rosters are no part of the invariant. -/
theorem MembInv.setRoster {κ : Conn} {μ : Memb} (h : MembInv κ μ) (n : NspId)
    (g : OMap String SocketId → OMap String SocketId) : MembInv κ (μ.setRoster n g) :=
  ⟨h.mirrors, h.known, h.refuses, h.unborn⟩

/-- A change of a socket's flags other than the three. -/
theorem MembInv.setFlags {κ : Conn} {μ : Memb} (h : MembInv κ μ) (s : SocketId)
    {g : Membership → Membership} (h1 : ∀ x, (g x).rooms = x.rooms)
    (h2 : ∀ x, (g x).membershipCleaned = x.membershipCleaned)
    (h3 : ∀ x, (g x).acceptsRoomJoins = x.acceptsRoomJoins) : MembInv κ (μ.setSocket s g) := by
  have hrooms : ∀ t, ((μ.setSocket s g).sockets t).rooms = (μ.sockets t).rooms := fun t => by
    simp only [Memb.setSocket, modify_apply]
    split <;> simp_all
  have hcleaned : ∀ t, ((μ.setSocket s g).sockets t).membershipCleaned =
      (μ.sockets t).membershipCleaned := fun t => by
    simp only [Memb.setSocket, modify_apply]
    split <;> simp_all
  have haccepts : ∀ t, ((μ.setSocket s g).sockets t).acceptsRoomJoins =
      (μ.sockets t).acceptsRoomJoins := fun t => by
    simp only [Memb.setSocket, modify_apply]
    split <;> simp_all
  constructor
  · exact fun n => (h.mirrors n).congr fun sid room => by simp only [Memb.Joined, hrooms, hcleaned]
  · simp only [hcleaned]
    exact h.known
  · simp only [hcleaned, haccepts]
    exact h.refuses
  · simp only [hcleaned, hrooms]
    exact h.unborn

/-! What one `add` or `del` does to the rows. -/

@[simp] theorem mem_joinRoom {κ : Conn} {s t : SocketId} {μ : Memb} {room q : String} :
    q ∈ ((Memb.joinRoom κ s μ room).sockets t).rooms ↔
      q ∈ (μ.sockets t).rooms ∨ (t = s ∧ q = room) := by
  simp only [Memb.joinRoom, Memb.setSocket, Memb.setAdapter, modify_apply]
  split <;> simp_all

@[simp] theorem joinRoom_cleaned (κ : Conn) (s t : SocketId) (μ : Memb) (room : String) :
    ((Memb.joinRoom κ s μ room).sockets t).membershipCleaned =
      (μ.sockets t).membershipCleaned := by
  simp only [Memb.joinRoom, Memb.setSocket, Memb.setAdapter, modify_apply]
  split <;> simp_all

@[simp] theorem joinRoom_accepts (κ : Conn) (s t : SocketId) (μ : Memb) (room : String) :
    ((Memb.joinRoom κ s μ room).sockets t).acceptsRoomJoins =
      (μ.sockets t).acceptsRoomJoins := by
  simp only [Memb.joinRoom, Memb.setSocket, Memb.setAdapter, modify_apply]
  split <;> simp_all

@[simp] theorem mem_leave {κ : Conn} {s t : SocketId} {μ : Memb} {room q : String} :
    q ∈ ((μ.leave κ s room).sockets t).rooms ↔
      q ∈ (μ.sockets t).rooms ∧ ¬ (t = s ∧ q = room) := by
  simp only [Memb.leave, Memb.setSocket, Memb.setAdapter, modify_apply]
  split <;> simp_all

@[simp] theorem leave_cleaned (κ : Conn) (s t : SocketId) (μ : Memb) (room : String) :
    ((μ.leave κ s room).sockets t).membershipCleaned = (μ.sockets t).membershipCleaned := by
  simp only [Memb.leave, Memb.setSocket, Memb.setAdapter, modify_apply]
  split <;> simp_all

@[simp] theorem leave_accepts (κ : Conn) (s t : SocketId) (μ : Memb) (room : String) :
    ((μ.leave κ s room).sockets t).acceptsRoomJoins = (μ.sockets t).acceptsRoomJoins := by
  simp only [Memb.leave, Memb.setSocket, Memb.setAdapter, modify_apply]
  split <;> simp_all

theorem joinRoom_inv {κ : Conn} {μ : Memb} (h : MembInv κ μ) {s : SocketId}
    (hs : s < κ.socketCount) (hc : (μ.sockets s).membershipCleaned = false) (room : String) :
    MembInv κ (Memb.joinRoom κ s μ room) := by
  have hjoined : ∀ n sid q, (Memb.joinRoom κ s μ room).Joined κ n sid q ↔
      μ.Joined κ n sid q ∨ (n = (κ.sockets s).nsp ∧ sid = (κ.sockets s).id ∧ q = room) := by
    intro n sid q
    simp only [Memb.Joined, mem_joinRoom, joinRoom_cleaned]
    constructor
    · rintro ⟨t, ht, hn, hid, hct, hr | ⟨rfl, rfl⟩⟩
      · exact Or.inl ⟨t, ht, hn, hid, hct, hr⟩
      · exact Or.inr ⟨hn.symm, hid.symm, rfl⟩
    · rintro (⟨t, ht, hn, hid, hct, hr⟩ | ⟨rfl, rfl, rfl⟩)
      · exact ⟨t, ht, hn, hid, hct, Or.inl hr⟩
      · exact ⟨s, hs, rfl, rfl, hc, Or.inr ⟨rfl, rfl⟩⟩
  constructor
  · intro n
    by_cases hn : n = (κ.sockets s).nsp
    · subst hn
      have hA : (Memb.joinRoom κ s μ room).adapters (κ.sockets s).nsp =
          (μ.adapters (κ.sockets s).nsp).add (κ.sockets s).id room := by
        simp [Memb.joinRoom, Memb.setSocket, Memb.setAdapter]
      rw [hA]
      exact ((h.mirrors _).add _ room).congr fun sid q => by rw [hjoined]; simp
    · have hA : (Memb.joinRoom κ s μ room).adapters n = μ.adapters n := by
        simp [Memb.joinRoom, Memb.setSocket, Memb.setAdapter, hn]
      rw [hA]
      exact (h.mirrors n).congr fun sid q => by rw [hjoined]; simp [hn]
  · intro n sid hsid
    simp only [joinRoom_cleaned]
    by_cases hn : n = (κ.sockets s).nsp ∧ sid = (κ.sockets s).id
    · exact ⟨s, hs, hn.1.symm, hn.2.symm, hc⟩
    · refine h.known n sid fun hnone => hsid ?_
      simp only [Memb.joinRoom, Memb.setSocket, Memb.setAdapter, modify_apply]
      split
      · rename_i hn'
        have hid : sid ≠ (κ.sockets s).id := fun e => hn ⟨hn', e⟩
        simp [Adapter.add, hid, ← hn', hnone]
      · exact hnone
  · simp only [joinRoom_cleaned, joinRoom_accepts]
    exact h.refuses
  · intro t ht
    have hts : t ≠ s := fun e => Nat.lt_irrefl _ (hs.trans_le (e ▸ ht))
    simpa [hts] using h.unborn t ht

theorem join_inv {κ : Conn} {μ : Memb} (h : MembInv κ μ) {s : SocketId}
    (hs : s < κ.socketCount) (rooms : List String) : MembInv κ (μ.join κ s rooms) := by
  have hfold : ∀ (rooms : List String) (μ : Memb), MembInv κ μ →
      (μ.sockets s).membershipCleaned = false → MembInv κ (rooms.foldl (Memb.joinRoom κ s) μ) := by
    intro rooms
    induction rooms with
    | nil => exact fun μ h _ => h
    | cons room rooms ih =>
        exact fun μ h hc => ih _ (joinRoom_inv h hs hc room)
          (by simpa [Memb.joinRoom, Memb.setSocket, Memb.setAdapter] using hc)
  unfold Memb.join
  split
  · rename_i ha
    refine hfold rooms μ h ?_
    by_contra hc
    rw [h.refuses s (by simpa using hc)] at ha
    cases ha
  · exact h

theorem leave_inv {κ : Conn} (hκ : κ.Wf P) {μ : Memb} (h : MembInv κ μ) {s : SocketId}
    (hs : s < κ.socketCount) (room : String) : MembInv κ (μ.leave κ s room) := by
  have hjoined : ∀ n sid q, (μ.leave κ s room).Joined κ n sid q ↔ μ.Joined κ n sid q ∧
      ¬ (n = (κ.sockets s).nsp ∧ sid = (κ.sockets s).id ∧ q = room) := by
    intro n sid q
    simp only [Memb.Joined, mem_leave, leave_cleaned]
    constructor
    · rintro ⟨t, ht, hn, hid, hct, hr, hne⟩
      refine ⟨⟨t, ht, hn, hid, hct, hr⟩, fun ⟨_, h2, h3⟩ => hne ⟨?_, h3⟩⟩
      exact hκ.id_inj ht hs (hid.trans h2)
    · rintro ⟨⟨t, ht, hn, hid, hct, hr⟩, hne⟩
      refine ⟨t, ht, hn, hid, hct, hr, ?_⟩
      rintro ⟨rfl, rfl⟩
      exact hne ⟨hn.symm, hid.symm, rfl⟩
  constructor
  · intro n
    by_cases hn : n = (κ.sockets s).nsp
    · subst hn
      have hA : (μ.leave κ s room).adapters (κ.sockets s).nsp =
          (μ.adapters (κ.sockets s).nsp).del (κ.sockets s).id room := by
        simp [Memb.leave, Memb.setSocket, Memb.setAdapter]
      rw [hA]
      exact ((h.mirrors _).del _ room).congr fun sid q => by rw [hjoined]; simp
    · have hA : (μ.leave κ s room).adapters n = μ.adapters n := by
        simp [Memb.leave, Memb.setSocket, Memb.setAdapter, hn]
      rw [hA]
      exact (h.mirrors n).congr fun sid q => by rw [hjoined]; simp [hn]
  · intro n sid hsid
    simp only [leave_cleaned]
    refine h.known n sid ?_
    simp only [Memb.leave, Memb.setSocket, Memb.setAdapter, modify_apply] at hsid
    split at hsid
    · rename_i hn
      exact hn ▸ Adapter.del_known hsid
    · exact hsid
  · simp only [leave_cleaned, leave_accepts]
    exact h.refuses
  · intro t ht
    obtain ⟨h1, h2⟩ := h.unborn t ht
    exact ⟨(leave_cleaned ..).trans h1, fun q hq => h2 q (mem_leave.mp hq).1⟩

/-- The first half of a cleanup takes the socket's row out of the adapter. -/
theorem startCleanup_inv {κ : Conn} (hκ : κ.Wf P) {μ : Memb} (h : MembInv κ μ) {s : SocketId}
    (hs : s < κ.socketCount) (hc : (μ.sockets s).membershipCleaned = false) :
    MembInv κ (μ.startCleanup κ s) := by
  have hsock : ∀ t, (μ.startCleanup κ s).sockets t = if t = s then
      { μ.sockets s with
        membershipCleaned := true, acceptsRoomJoins := false, drainingAdapterDelivery := true }
      else μ.sockets t := fun t => by simp [Memb.startCleanup, Memb.setSocket, Memb.setAdapter]
  have hjoined : ∀ n sid q, (μ.startCleanup κ s).Joined κ n sid q ↔
      μ.Joined κ n sid q ∧ sid ≠ (κ.sockets s).id := by
    intro n sid q
    constructor
    · rintro ⟨t, ht, hn, hid, hct, hr⟩
      rw [hsock] at hct hr
      split at hct
      · cases hct
      · rename_i hts
        rw [if_neg hts] at hr
        exact ⟨⟨t, ht, hn, hid, hct, hr⟩, fun e => hts (hκ.id_inj ht hs (hid.trans e))⟩
    · rintro ⟨⟨t, ht, hn, hid, hct, hr⟩, hne⟩
      have hts : t ≠ s := fun e => hne (by rw [← hid, e])
      exact ⟨t, ht, hn, hid, by rwa [hsock, if_neg hts], by rwa [hsock, if_neg hts]⟩
  have hrow : ∀ n q, μ.Joined κ n (κ.sockets s).id q ↔
      n = (κ.sockets s).nsp ∧ q ∈ (μ.sockets s).rooms := by
    intro n q
    constructor
    · rintro ⟨t, ht, hn, hid, _, hr⟩
      obtain rfl := hκ.id_inj ht hs hid
      exact ⟨hn.symm, hr⟩
    · rintro ⟨rfl, hr⟩
      exact ⟨s, hs, rfl, rfl, hc, hr⟩
  constructor
  · intro n
    by_cases hn : n = (κ.sockets s).nsp
    · subst hn
      have hA : (μ.startCleanup κ s).adapters (κ.sockets s).nsp =
          let A := (μ.sockets s).rooms.elems.foldl (fun A room => A.del (κ.sockets s).id room)
            (μ.adapters (κ.sockets s).nsp)
          { A with sids := A.sids.erase (κ.sockets s).id } := by
        simp [Memb.startCleanup, Memb.setSocket, Memb.setAdapter]
      rw [hA]
      have hdel := @Adapter.Mirrors.delAll (κ.sockets s).id (μ.sockets s).rooms.elems _ _
        (h.mirrors (κ.sockets s).nsp)
      refine (hdel.forget fun q hq => hq.2 ⟨rfl, ((hrow _ q).mp hq.1).2⟩).congr fun sid q => ?_
      rw [hjoined]
      constructor
      · exact fun ⟨h1, h2⟩ => ⟨h1, fun e => h2 ⟨e, ((hrow _ q).mp (e ▸ h1)).2⟩⟩
      · exact fun ⟨h1, h2⟩ => ⟨h1, fun h3 => h2 h3.1⟩
    · have hA : (μ.startCleanup κ s).adapters n = μ.adapters n := by
        simp [Memb.startCleanup, Memb.setSocket, Memb.setAdapter, hn]
      rw [hA]
      refine (h.mirrors n).congr fun sid q => ?_
      rw [hjoined]
      exact ⟨fun h1 => ⟨h1, fun e => hn ((hrow n q).mp (e ▸ h1)).1⟩, fun h1 => h1.1⟩
  · intro n sid hsid
    have hmem : (μ.adapters n).sids.get? sid ≠ none ∧ (n = (κ.sockets s).nsp →
        sid ≠ (κ.sockets s).id) := by
      simp only [Memb.startCleanup, Memb.setSocket, Memb.setAdapter, modify_apply] at hsid
      split at hsid
      · rename_i hn
        rw [OMap.get?_erase] at hsid
        split at hsid
        · exact absurd rfl hsid
        · rename_i hid
          exact ⟨hn ▸ Adapter.delAll_known hsid, fun _ => hid⟩
      · rename_i hn
        exact ⟨hsid, fun e => absurd e hn⟩
    obtain ⟨t, ht, htn, hid, hct⟩ := h.known n sid hmem.1
    have hts : t ≠ s := fun e => hmem.2 (by rw [← htn, e]) (by rw [← hid, e])
    exact ⟨t, ht, htn, hid, by rwa [hsock, if_neg hts]⟩
  · intro t
    rw [hsock]
    split
    · exact fun _ => rfl
    · exact h.refuses t
  · intro t ht
    have hts : t ≠ s := fun e => Nat.lt_irrefl _ (hs.trans_le (e ▸ ht))
    rw [hsock, if_neg hts]
    exact h.unborn t ht

/-- The second half empties a row that is no longer in the adapter. -/
theorem endCleanup_inv {κ : Conn} {μ : Memb} (h : MembInv κ μ) {s : SocketId}
    (hs : s < κ.socketCount) (hc : (μ.sockets s).membershipCleaned = true) :
    MembInv κ (μ.endCleanup κ s) := by
  suffices h' : MembInv κ (μ.setSocket s fun x => { x with rooms := .empty }) from h'.setRoster _ _
  have hsock : ∀ t, t ≠ s → (μ.setSocket s fun x => { x with rooms := .empty }).sockets t =
      μ.sockets t := fun t ht => by simp [Memb.setSocket, ht]
  have hcl : ∀ t, ((μ.setSocket s fun x => { x with rooms := .empty }).sockets t).membershipCleaned =
      (μ.sockets t).membershipCleaned := fun t => by
    simp only [Memb.setSocket, modify_apply]
    split <;> simp_all
  constructor
  · refine fun n => (h.mirrors n).congr fun sid q => ⟨?_, ?_⟩
    · rintro ⟨t, ht, hn, hid, hct, hr⟩
      have hts : t ≠ s := fun e => by rw [e, hc] at hct; cases hct
      exact ⟨t, ht, hn, hid, (hcl t).trans hct, by rwa [hsock t hts]⟩
    · rintro ⟨t, ht, hn, hid, hct, hr⟩
      rw [hcl] at hct
      have hts : t ≠ s := fun e => by rw [e, hc] at hct; cases hct
      exact ⟨t, ht, hn, hid, hct, by rwa [hsock t hts] at hr⟩
  · simp only [hcl]
    exact h.known
  · intro t
    rw [hcl]
    intro ht
    have h' := h.refuses t ht
    simp only [Memb.setSocket, modify_apply]
    split <;> simp_all
  · intro t ht
    have hts : t ≠ s := fun e => Nat.lt_irrefl _ (hs.trans_le (e ▸ ht))
    rw [hsock t hts]
    exact h.unborn t ht

/-! ## 3. The invariant of a run -/

/-- A cleanup that is under way is one of a socket marked as cleaned up. -/
def MembOk (σ : Core) : Instr → Prop
  | .memb (.cleanupMembershipRest s) => (σ.memb.sockets s).membershipCleaned = true
  | _ => True

theorem execMemb_inv {σ : Core} (hw : σ.Wf P) (h : MembInv σ.conn σ.memb) {i : MembInstr}
    (hv : ∀ r ∈ i.refs, r.Valid σ.conn) (hok : MembOk σ (.memb i)) :
    MembInv σ.conn (execMemb σ i).part := by
  cases i with
  | enter s => exact join_inv (h.setRoster _ _) (hv (.socket s) (List.mem_singleton_self _)) _
  | join s rooms => exact join_inv h (hv (.socket s) (List.mem_singleton_self _)) rooms
  | leave s room => exact leave_inv hw.conn h (hv (.socket s) (List.mem_singleton_self _)) room
  | socketsJoin op rooms =>
      exact List.foldlRecOn _ _ h fun μ hμ s hs => join_inv hμ (hw.management_lt hs) rooms
  | socketsLeave op rooms =>
      exact List.foldlRecOn _ _ h fun μ hμ s hs => List.foldlRecOn _ _ hμ fun μ hμ room _ =>
        leave_inv hw.conn hμ (hw.management_lt hs) room
  | cleanupMembership s =>
      have hs := hv (.socket s) (List.mem_singleton_self _)
      simp only [execMemb, cleanupMembership]
      split
      · exact h
      · rename_i hc
        exact startCleanup_inv hw.conn h hs (by simpa using hc)
  | drainEnd s => exact h.setFlags s (fun _ => rfl) (fun _ => rfl) fun _ => rfl
  | cleanupMembershipRest s =>
      exact endCleanup_inv h (hv (.socket s) (List.mem_singleton_self _)) hok

/-! ## 4. The instructions of a cleanup -/

/-- What lies on the stack between the two halves of a cleanup, application frames aside. -/
def inCleanup : Instr → Bool
  | .srv (.removeSocket _) | .mail (.removeDeliveries _) | .mail (.cancelTimer _) => true
  | .memb (.drainEnd _) | .memb (.cleanupMembershipRest _) => true
  | .ctl (.deliverClient d) => decide (d.guard ≠ .generation none)
  | _ => false

/-- The application code a cleanup runs (listeners of drained packets, the removal hook of an
    application's own adapter) does not throw. -/
def CleanupsReturn (σ : State) (a : Action Instr) : Prop :=
  a = .throw → σ.stack.tail.head?.any inCleanup = false

instance (σ : State) (a : Action Instr) : Decidable (CleanupsReturn σ a) :=
  match a with
  | .throw => decidable_of_iff (σ.stack.tail.head?.any inCleanup = false)
      ⟨fun h _ => h, fun h => h rfl⟩
  | .run | .call _ | .ret => isTrue nofun

/-- What a drain pushes: the queued deliveries and the end of the timer. -/
theorem removeDeliveries_push {σ : Core} (h : σ.mail.Wf σ.conn) (s : SocketId) :
    (∀ j ∈ (removeDeliveries σ s).push, inCleanup j = true) ∨
      ∃ n, (removeDeliveries σ s).push = [.app (.adapterHook n)] := by
  unfold removeDeliveries
  dsimp only
  split
  · exact Or.inl nofun
  · exact Or.inr ⟨_, rfl⟩
  · split
    · exact Or.inl nofun
    · rename_i q hq
      refine Or.inl fun j hj => ?_
      rcases List.mem_append.mp hj with hj | hj
      · obtain ⟨e, he, rfl⟩ := List.mem_map.mp hj
        simpa [inCleanup] using (h.queues _ _ q hq e he).guarded
      · obtain rfl := List.mem_singleton.mp hj
        rfl

/-- A send pushes at most an application frame. -/
theorem sendToClient_push (R : Instr → Instr → Prop) (σ : Core) (s : SocketId) (serial : Nat)
    (event : String) (reply : Option Reply) (survived : Bool) :
    (sendToClient σ s serial event reply survived).push.IsChain R := by
  have h : ∀ μ d, (scheduleReceive σ μ d).push.IsChain R := fun μ d => by
    unfold scheduleReceive
    split
    · exact .nil
    · dsimp only
      split
      · exact .nil
      · exact .nil
      · exact .singleton _
  unfold sendToClient
  dsimp only
  split
  · exact h _ _
  · split
    · exact .nil
    · exact h _ _

/-- Who pushes an instruction of a cleanup. -/
theorem spawns_cleanup {σ : Core} {i j : Instr} (hj : j ∈ (exec P i σ).spawned)
    (hc : inCleanup j = true) : (∃ s, i = .memb (.cleanupMembership s)) ∨
      (∃ s, i = .srv (.removeSocket s)) ∨ (∃ s, i = .mail (.removeDeliveries s)) ∨
      (∃ r, i = .mail (.pumpRun r)) ∨ i.SendsToClient := by
  have hby := spawnedBy hj
  unfold inCleanup at hc
  split at hc
  case h_7 => cases hc
  all_goals
    simp only [Instr.SpawnedBy, SrvInstr.SpawnedBy, MailInstr.SpawnedBy, MembInstr.SpawnedBy,
      CtlInstr.SpawnedBy] at hby
    grind

theorem cleanup_push {σ : Core} (hw : σ.Wf P) {i : Instr} :
    (exec P i σ).push.IsChain (Over (fun i => inCleanup i = true) fun i => isApp i = true) := by
  by_cases hi : ∃ j ∈ (exec P i σ).push, inCleanup j = true
  · obtain ⟨j, hj, hc⟩ := hi
    rcases spawns_cleanup (List.mem_append_left _ hj) hc with ⟨s, rfl⟩ | ⟨s, rfl⟩ | ⟨s, rfl⟩ |
      ⟨r, rfl⟩ | ⟨s, n, e, r, w, rfl⟩ | ⟨s, n, e, w, rfl⟩
    · simp only [exec, execMemb, cleanupMembership]
      split
      · exact .nil
      · exact chain_of_all (by simp [inCleanup])
    · exact .singleton _
    · rcases removeDeliveries_push hw.mail s with h | ⟨n, h⟩
      · exact chain_of_all h
      · simp only [exec, execMail, h]
        exact .singleton _
    · simp only [exec, execMail, pumpRun]
      split
      · exact chain_of_tail (by simp [inCleanup])
      · exact .nil
    · simp only [exec, execMail, serverEmitRest]
      split
      · exact .nil
      · exact sendToClient_push _ σ s n e r _
    · exact sendToClient_push _ σ s n e none _
  · exact chain_of_tail fun j hj hc => hi ⟨j, List.mem_of_mem_tail hj, hc⟩

/-- Only a packet sent while no server socket was at hand has a guard that throws. -/
theorem passes_ne_none {σ : Core} {c : ClientId} {g : DeliveryGuard} (h : g ≠ .generation none) :
    g.passes σ c ≠ none := by
  cases g with
  | survived s => nofun
  | generation captured =>
      cases captured with
      | none => exact absurd rfl h
      | some s =>
          simp only [DeliveryGuard.passes]
          split <;> simp

/-- **A cleanup is not interrupted**: what it has left to do stays on the stack. -/
theorem cleanup_section (P : Platform) :
    Section (runtime P) (fun _ _ => True) (Core.Wf P) (fun σ i => i.Valid σ)
      (fun i => inCleanup i = true) fun i => isApp i = true where
  app i hi := by
    cases i with
    | app x => cases hi
    | _ => rfl
  frame _ hi := hi
  push σ i h hi j hj := by
    unfold inCleanup at hi
    split at hi
    · obtain rfl := List.mem_singleton.mp hj
      exact Or.inl rfl
    · rename_i s
      rcases removeDeliveries_push h.inv.mail s with hall | ⟨n, hn⟩
      · exact Or.inl (hall j hj)
      · simp only [runtime, exec, execMail, hn, List.mem_singleton] at hj
        exact Or.inr (hj ▸ rfl)
    · cases hj
    · cases hj
    · cases hj
    · rename_i d
      refine Or.inr ?_
      simp only [runtime, exec, execCtl, deliverClient] at hj
      split at hj
      · cases hj
      · cases hj
      · obtain rfl := List.mem_singleton.mp hj
        rfl
    · cases hi
  chain σ i h := cleanup_push h.inv
  fails σ i h hi := by
    unfold inCleanup at hi
    split at hi
    · rfl
    · simp only [runtime, exec, execMail, removeDeliveries]
      split
      · rfl
      · rfl
      · split <;> rfl
    · rfl
    · rfl
    · rfl
    · rename_i d
      simp only [runtime, exec, execCtl, deliverClient]
      split
      · rename_i hnone
        exact absurd hnone (passes_ne_none (of_decide_eq_true hi))
      · rfl
      · rfl
    · cases hi
  handleChain σ i is _ _ his := by
    rcases onThrow_handle his with rfl | ⟨a, err, rfl, -⟩
    · exact .nil
    · exact .singleton _

/-! ## 5. The invariants of a run -/

@[simp] theorem join_cleaned (κ : Conn) (s t : SocketId) (μ : Memb) (rooms : List String) :
    ((μ.join κ s rooms).sockets t).membershipCleaned = (μ.sockets t).membershipCleaned := by
  unfold Memb.join
  split
  · exact List.foldlRecOn (motive := fun ν : Memb => (ν.sockets t).membershipCleaned = _) _ _ rfl
      fun ν hν room _ => (joinRoom_cleaned ..).trans hν
  · rfl

/-- A socket that has been cleaned up stays so. -/
theorem cleaned_exec {σ : Core} {i : Instr} {s : SocketId}
    (h : (σ.memb.sockets s).membershipCleaned = true) :
    ((exec P i σ).core.memb.sockets s).membershipCleaned = true := by
  cases i with
  | memb i =>
      cases i with
      | enter t => exact (join_cleaned ..).trans h
      | join t rooms => exact (join_cleaned ..).trans h
      | leave t room => exact (leave_cleaned ..).trans h
      | socketsJoin op rooms =>
          exact List.foldlRecOn (motive := fun ν : Memb => (ν.sockets s).membershipCleaned = true) _ _ h
            fun ν hν t _ => (join_cleaned ..).trans hν
      | socketsLeave op rooms =>
          exact List.foldlRecOn (motive := fun ν : Memb => (ν.sockets s).membershipCleaned = true) _ _ h
            fun ν hν t _ => List.foldlRecOn
              (motive := fun ν : Memb => (ν.sockets s).membershipCleaned = true) _ _ hν
              fun ν hν room _ => (leave_cleaned ..).trans hν
      | cleanupMembership t =>
          simp only [exec, execMemb, cleanupMembership]
          split
          · exact h
          · simp only [Memb.startCleanup, Memb.setSocket, modify_apply]
            split
            · rfl
            · exact h
      | drainEnd t | cleanupMembershipRest t =>
          simp only [exec, execMemb, Memb.endCleanup, Memb.setRoster, Memb.setSocket, modify_apply]
          split <;> simp_all
  | _ => exact h

theorem membership_inductive (P : Platform) :
    Inductive (runtime P) (fun _ _ => True) (fun σ => σ.Wf P ∧ MembInv σ.conn σ.memb)
      (fun σ i => i.Valid σ ∧ MembOk σ i) fun _ => (none : Option Unit) := by
  refine Layer.inductive (valid_inductive P) (fun _ _ _ => trivial) (Layer.of_facts ?_ ?_ ?_ ?_ ?_ ?_)
  · intro σ i hw hv h
    cases i with
    | conn i => exact h.inv.grow (conn_extends hw hv)
    | memb i => exact execMemb_inv hw h.inv hv h.ok
    | _ => exact h.inv
  · intro σ i hw hv h j hj
    unfold MembOk
    split
    · rename_i s
      obtain rfl : i = .memb (.cleanupMembership s) := by simpa using spawnedBy hj
      simp only [runtime, exec, execMemb, cleanupMembership]
      split
      · rename_i hc
        exact hc
      · simp [Memb.startCleanup, Memb.setSocket]
    · trivial
  · intro σ i j _ _ _ _ hj
    unfold MembOk at hj ⊢
    split
    · exact cleaned_exec hj
    · trivial
  · intro σ i _ _ hc
    unfold MembOk
    split
    · simp [runtime, callable] at hc
    · trivial
  · intro σ i is _ _ his j hj
    rcases onThrow_handle his with rfl | ⟨a, err, rfl, -⟩
    · cases hj
    · obtain rfl := List.mem_singleton.mp hj
      trivial
  · exact fun _ _ _ => trivial

/-- A socket that has been cleaned up still lists a room. -/
def Memb.Owes (μ : Memb) (s : SocketId) : Prop :=
  (μ.sockets s).membershipCleaned = true ∧ ∃ room, room ∈ (μ.sockets s).rooms

theorem mem_join {κ : Conn} {s t : SocketId} {μ : Memb} {rooms : List String} {q : String} :
    q ∈ ((μ.join κ s rooms).sockets t).rooms ↔ q ∈ (μ.sockets t).rooms ∨
      (t = s ∧ (μ.sockets s).acceptsRoomJoins = true ∧ q ∈ rooms) := by
  have hfold : ∀ μ : Memb, q ∈ ((rooms.foldl (Memb.joinRoom κ s) μ).sockets t).rooms ↔
      q ∈ (μ.sockets t).rooms ∨ (t = s ∧ q ∈ rooms) := by
    induction rooms with
    | nil => simp
    | cons room rooms ih =>
        intro μ
        rw [List.foldl_cons, ih, mem_joinRoom, List.mem_cons]
        tauto
  unfold Memb.join
  split
  · rename_i h
    rw [hfold]
    simp [h]
  · rename_i h
    simp [h]

theorem join_owes {κ : Conn} {μ : Memb} (h : MembInv κ μ) {s t : SocketId} {rooms : List String}
    (ho : (μ.join κ s rooms).Owes t) : μ.Owes t := by
  obtain ⟨hc, q, hq⟩ := ho
  rw [join_cleaned] at hc
  rcases mem_join.mp hq with hq | ⟨rfl, ha, -⟩
  · exact ⟨hc, q, hq⟩
  · rw [h.refuses _ hc] at ha
    cases ha

theorem leave_owes {κ : Conn} {μ : Memb} {s t : SocketId} {room : String}
    (ho : (μ.leave κ s room).Owes t) : μ.Owes t := by
  obtain ⟨hc, q, hq⟩ := ho
  exact ⟨(leave_cleaned ..).symm.trans hc, q, (mem_leave.mp hq).1⟩

theorem drainEnd_owes {σ : Core} {s t : SocketId} (ho : (execMemb σ (.drainEnd s)).part.Owes t) :
    σ.memb.Owes t := by
  simp only [execMemb, Memb.Owes, Memb.setSocket, modify_apply] at ho
  split at ho
  · rename_i hts
    exact hts ▸ ho
  · exact ho

/-- Changes of membership do not throw. -/
theorem execMemb_fails (σ : Core) (i : MembInstr) : (execMemb σ i).fails = false := by
  cases i with
  | cleanupMembership s =>
      simp only [execMemb, cleanupMembership]
      split <;> rfl
  | _ => rfl

/-- **A cleanup makes the debt, its second half pays it**, and nothing else makes one. -/
theorem execMemb_owes {σ : Core} (hw : σ.Wf P) (h : MembInv σ.conn σ.memb) {i : MembInstr}
    (hv : ∀ r ∈ i.refs, r.Valid σ.conn) {t : SocketId} (ho : (execMemb σ i).part.Owes t) :
    Instr.memb (.cleanupMembershipRest t) ∈ (execMemb σ i).push ∨
      (σ.memb.Owes t ∧ i ≠ .cleanupMembershipRest t) := by
  cases i with
  | enter s => exact Or.inr ⟨join_owes (h.setRoster ..) ho, (by intro h; cases h)⟩
  | join s rooms => exact Or.inr ⟨join_owes h ho, (by intro h; cases h)⟩
  | leave s room => exact Or.inr ⟨leave_owes ho, (by intro h; cases h)⟩
  | socketsJoin op rooms =>
      have hfold : MembInv σ.conn (execMemb σ (.socketsJoin op rooms)).part ∧
          ((execMemb σ (.socketsJoin op rooms)).part.Owes t → σ.memb.Owes t) :=
        List.foldlRecOn (motive := fun μ => MembInv σ.conn μ ∧ (μ.Owes t → σ.memb.Owes t)) _ _
          ⟨h, id⟩ fun μ hμ s hs =>
            ⟨join_inv hμ.1 (hw.management_lt hs) rooms, fun ho => hμ.2 (join_owes hμ.1 ho)⟩
      exact Or.inr ⟨hfold.2 ho, (by intro h; cases h)⟩
  | socketsLeave op rooms =>
      have hfold : (execMemb σ (.socketsLeave op rooms)).part.Owes t → σ.memb.Owes t :=
        List.foldlRecOn (motive := fun μ : Memb => μ.Owes t → σ.memb.Owes t) _ _ id fun μ hμ s _ =>
          List.foldlRecOn (motive := fun μ : Memb => μ.Owes t → σ.memb.Owes t) _ _ hμ
            fun μ hμ room _ ho => hμ (leave_owes ho)
      exact Or.inr ⟨hfold ho, (by intro h; cases h)⟩
  | cleanupMembership s =>
      simp only [execMemb, cleanupMembership] at ho ⊢
      split at ho
      · rename_i hc
        exact Or.inr ⟨ho, (by intro h; cases h)⟩
      · rename_i hc
        by_cases hts : t = s
        · subst hts
          simp [hc]
        · refine Or.inr ⟨?_, (by intro h; cases h)⟩
          simpa [Memb.Owes, Memb.startCleanup, Memb.setSocket, Memb.setAdapter, hts] using ho
  | drainEnd s => exact Or.inr ⟨drainEnd_owes ho, (by intro h; cases h)⟩
  | cleanupMembershipRest s =>
      simp only [execMemb, Memb.Owes, Memb.endCleanup, Memb.setRoster, Memb.setSocket,
        modify_apply] at ho
      split at ho
      · simp at ho
      · rename_i hts
        exact Or.inr ⟨ho, fun e => hts (by cases e; rfl)⟩

/-- The second half of a cleanup is due while its socket lists a room. -/
theorem cleanup_debts {Good : Core → Instr → Prop} {I : Core → Prop} {Ok : Core → Instr → Prop}
    {S : Instr → Prop} (hI : ∀ σ, I σ → σ.Wf P ∧ MembInv σ.conn σ.memb)
    (hO : ∀ σ i, Ok σ i → i.Valid σ) (hS : ∀ s, S (.memb (.cleanupMembershipRest s))) :
    Debts (runtime P) Good I Ok S (fun σ s => σ.memb.Owes s)
      fun i s => i = .memb (.cleanupMembershipRest s) where
  inSection i s hi := hi ▸ hS s
  exec σ i s h _ ho := by
    cases i with
    | memb i =>
        obtain ⟨hw, hm⟩ := hI σ h.inv
        rcases execMemb_owes hw hm (hO σ _ h.ok) ho with hp | ⟨ho, hi⟩
        · exact Or.inl ⟨_, List.mem_append_left _ hp, rfl⟩
        · exact Or.inr ⟨ho, fun e => hi (Instr.memb.inj e)⟩
    | _ => exact Or.inr ⟨ho, nofun⟩
  fails σ i s h hf ho := by
    cases i with
    | memb i =>
        rw [show ((runtime P).exec (.memb i) σ).fails = false from execMemb_fails σ i] at hf
        cases hf
    | _ => exact ho
  run σ i s hr _ ho := by
    cases i with
    | memb i =>
        cases i with
        | drainEnd t => exact drainEnd_owes ho
        | _ => cases hr
    | _ => exact ho

/-! ## 6. The membership mirror -/

theorem newServer_membership : MembInv newServer.core.conn newServer.core.memb where
  mirrors n := by
    refine ⟨fun sid room => ?_, fun sid room => ?_, nofun⟩
    · exact iff_of_false (OMap.not_has_empty _ _) fun ⟨s, hs, _⟩ => Nat.not_lt_zero s hs
    · exact iff_of_false (OMap.not_has_empty _ _) fun ⟨s, hs, _⟩ => Nat.not_lt_zero s hs
  known n sid h := absurd rfl h
  refuses s h := by cases h
  unborn s _ := ⟨rfl, fun room h => by cases h⟩

theorem newServer_keeps (P : Platform) :
    Keeps (fun σ => σ.Wf P ∧ MembInv σ.conn σ.memb) (fun σ i => i.Valid σ ∧ MembOk σ i)
      (fun _ => (none : Option Unit)) newServer.core newServer.pending :=
  ⟨⟨newServer_wf P, newServer_membership⟩, nofun, .nil⟩

/-- The invariants of a reachable state. -/
theorem reach_membership {σ : State} (h : (runtime P).Reach CleanupsReturn newServer σ) :
    σ.core.Wf P ∧ MembInv σ.core.conn σ.core.memb ∧
      ∀ s, σ.core.memb.Owes s → .memb (.cleanupMembershipRest s) ∈ σ.pending := by
  have hM := membership_inductive P
  have hG : ∀ (τ : State) a, CleanupsReturn τ a → (runtime P).Obeys (fun _ _ => True) τ a :=
    fun _ _ _ _ _ _ _ => trivial
  have hS : Section (runtime P) (fun _ _ => True) (fun σ => σ.Wf P ∧ MembInv σ.conn σ.memb)
      (fun σ i => i.Valid σ ∧ MembOk σ i) (fun i => inCleanup i = true) fun i => isApp i = true :=
    (cleanup_section P).mono (fun _ _ _ => trivial) (fun _ h => h.1) fun _ _ h => h.1
  have hk := h.inv_ok hM hG (newServer_keeps P)
  refine ⟨hk.inv.1, hk.inv.2, fun s ho => ?_⟩
  obtain ⟨j, hj, rfl⟩ := h.debts
    (cleanup_debts (fun _ h => h) (fun _ _ h => h.1) fun _ => rfl) hS hM hG
    (fun τ a hτ ha i k hk _ j hj hc => by
      simpa [hk, Option.mem_def.mp hj, hc] using hτ ha)
    (newServer_keeps P) .nil (fun t ⟨ht, _⟩ => by cases ht) s ho
  exact hj

/-- Sockets keep their names, and those that have been cleaned up stay so. -/
theorem reach_later {C C' : State → Action Instr → Prop} {σ τ : State}
    (hσ : (runtime P).Reach C newServer σ) (h : (runtime P).Reach C' σ τ) :
    σ.core.conn.Extends τ.core.conn ∧ ∀ s, (σ.core.memb.sockets s).membershipCleaned = true →
      (τ.core.memb.sockets s).membershipCleaned = true := by
  have hL : Machine.Layer (runtime P) (fun _ _ => True) (Core.Wf P) (fun σ i => i.Valid σ)
      (fun c => σ.core.conn.Extends c.conn ∧ ∀ s, (σ.core.memb.sockets s).membershipCleaned = true →
        (c.memb.sockets s).membershipCleaned = true) (fun _ _ => True)
      fun _ => (none : Option Unit) :=
    .of_facts (fun c i hw hv h =>
        ⟨h.inv.1.trans (conn_extends hw hv), fun s hs => cleaned_exec (h.inv.2 s hs)⟩)
      (fun _ _ _ _ _ _ _ => trivial) (fun _ _ _ _ _ _ _ _ => trivial) (fun _ _ _ _ _ => trivial)
      (fun _ _ _ _ _ _ _ _ => trivial) fun _ _ _ => trivial
  have hw := reach_wf hσ
  have hk := h.inv_ok (hL.inductive (valid_inductive P) fun _ _ _ => trivial)
    (fun _ _ _ _ _ _ _ => trivial)
    ⟨⟨hw.1, .refl _, fun _ hs => hs⟩, fun j hj => ⟨hw.2 j hj, trivial⟩,
      List.pairwise_of_forall fun _ _ => Apart.of_none rfl⟩
  exact hk.inv.2

/-- A cleaned-up socket is in no index. -/
theorem MembInv.gone {κ : Conn} (hκ : κ.Wf P) {μ : Memb} (h : MembInv κ μ) {s : SocketId}
    (hs : s < κ.socketCount) (hc : (μ.sockets s).membershipCleaned = true) (n : NspId) :
    (μ.adapters n).sids.get? (κ.sockets s).id = none ∧
      ∀ room, ¬ (μ.adapters n).rooms.Has room (κ.sockets s).id := by
  constructor
  · by_contra hk
    obtain ⟨t, ht, -, hid, hct⟩ := h.known n _ hk
    rw [hκ.id_inj ht hs hid, hc] at hct
    cases hct
  · intro room hr
    obtain ⟨t, ht, -, hid, hct, -⟩ := ((h.mirrors n).rooms _ room).mp hr
    rw [hκ.id_inj ht hs hid, hc] at hct
    cases hct

/-- **The membership mirror.** In every reachable state the two indexes of every adapter agree and
    no room is empty; outside a cleanup of it, a socket's rooms are those of its sid; a socket that
    has been cleaned up is in no index, then and in every later state. -/
theorem membership_mirrored {σ : State} (h : (runtime P).Reach CleanupsReturn newServer σ) :
    (∀ n sid room, (σ.core.memb.adapters n).sids.Has sid room ↔
        (σ.core.memb.adapters n).rooms.Has room sid) ∧
      (∀ n room members, (σ.core.memb.adapters n).rooms.get? room = some members →
        members.elems ≠ []) ∧
      (∀ s < σ.core.conn.socketCount, .memb (.cleanupMembershipRest s) ∉ σ.pending → ∀ room,
        room ∈ (σ.core.memb.sockets s).rooms ↔
          (σ.core.memb.adapters (σ.core.conn.sockets s).nsp).sids.Has (σ.core.conn.sockets s).id
            room) ∧
      ∀ s < σ.core.conn.socketCount, (σ.core.memb.sockets s).membershipCleaned = true →
        ∀ τ, (runtime P).Reach CleanupsReturn σ τ → ∀ n,
          (τ.core.memb.adapters n).sids.get? (σ.core.conn.sockets s).id = none ∧
            ∀ room, ¬ (τ.core.memb.adapters n).rooms.Has room (σ.core.conn.sockets s).id := by
  obtain ⟨hw, hI, hdue⟩ := reach_membership h
  refine ⟨fun n sid room => ((hI.mirrors n).sids sid room).trans ((hI.mirrors n).rooms sid room).symm,
    fun n => (hI.mirrors n).inhabited, fun s hs hno room => ?_, fun s hs hc τ hτ n => ?_⟩
  · rw [(hI.mirrors _).sids]
    constructor
    · intro hr
      refine ⟨s, hs, rfl, rfl, ?_, hr⟩
      by_contra hc
      exact hno (hdue s ⟨by simpa using hc, room, hr⟩)
    · rintro ⟨t, ht, -, hid, -, hr⟩
      exact hw.conn.id_inj ht hs hid ▸ hr
  · obtain ⟨hE, hcl⟩ := reach_later h hτ
    obtain ⟨hwτ, hIτ, -⟩ := reach_membership (h.trans hτ)
    rw [← hE.socketOf s hs]
    exact hIτ.gone hwτ.conn (hs.trans_le hE.sockets) (hcl s hc) n

/-- A socket joins a room and is disconnected. -/
theorem membership_mirrored_disconnect :
    ∃ σ, (runtime unary).Reach CleanupsReturn newServer σ ∧
      (σ.core.memb.sockets 0).membershipCleaned = true ∧
        ∀ n room, ¬ (σ.core.memb.adapters n).rooms.Has room (σ.core.conn.sockets 0).id := by
  obtain ⟨σ, hσ, hp⟩ := reach_of_script (runtime unary) CleanupsReturn newServer 60
    [.call (.srv (.serverConnect "/" false false)), .run, .run, .ret, .ret, .ret,
      .call (.memb (.join 0 ["room"])), .call (.ctl (.disconnect 0 false)), .ret, .ret]
    (fun σ => (σ.core.memb.sockets 0).membershipCleaned && decide (0 < σ.core.conn.socketCount))
    (by decide)
  rw [Bool.and_eq_true, decide_eq_true_iff] at hp
  exact ⟨σ, hσ, hp.1, fun n => ((membership_mirrored hσ).2.2.2 0 hp.2 hp.1 σ .start n).2⟩

end Smocket
