import Workshop.ErasingLoop
import Workshop.FtpAcceptor

/-!
# Removing the dead clients

`close_dead_sockets` erases a client from the vector it iterates over and then
increments its iterator, and it joins the thread of a client before it shuts
the socket down. It is a filter exactly where every dead client is followed by
one that is alive and the joins find the returned sessions of the dead clients.
-/

set_option autoImplicit false

namespace Workshop.FtpDeadClients
open Workshop.GrowingVector Workshop.ErasingLoop Workshop.FtpAcceptor

/-- The session whose thread is found at the saved address, unless it is joined. -/
def owner (v : Service) (c : Client) : Option ℕ := (c.thread.bind v.threads.fetch).join

theorem owner_some {v : Service} {c : Client} {i : ℕ} :
    owner v c = some i ↔ ∃ th, c.thread = some th ∧ v.threads.fetch th = some (some i) := by
  simp [owner, Option.join_eq_some_iff, Option.bind_eq_some_iff]

theorem fetch_join {v : Service} {index i j : ℕ} {p : Address} :
    (v.join index i).threads.fetch p = some (some j) ↔
      v.threads.fetch p = some (some j) ∧ p.index ≠ index := by
  rw [Growing.fetch_some, Growing.fetch_some]
  constructor
  · rintro ⟨hblock,helem⟩
    rcases Growing.mem_assign helem with ⟨-,hnone⟩ | ⟨hne,helem⟩
    · cases hnone
    · exact ⟨⟨hblock,helem⟩,hne⟩
  · rintro ⟨⟨hblock,helem⟩,hne⟩
    exact ⟨hblock,(Growing.elems_assign_ne hne.symm).trans helem⟩

section Join
variable (v : Service) (index i j : ℕ) (c : Client)

theorem join_session :
    ((v.join index i).session j).returned = (v.session j).returned ∧
      ((v.join index i).session j).shuts = (v.session j).shuts ∧
      ((v.join index i).session j).joins = (v.session j).joins+if i = j then 1 else 0 := by
  by_cases h : i = j
  · subst h
    simp [Service.join, Service.onSession]
  · simp [Service.join, Service.onSession, h, Ne.symm h]

theorem shutdownSocket_session :
    ((v.shutdownSocket c).session j).returned = (v.session j).returned ∧
      ((v.shutdownSocket c).session j).joins = (v.session j).joins ∧
      ((v.shutdownSocket c).session j).shuts =
        (v.session j).shuts+if c.socketId = j then 1 else 0 := by
  by_cases h : c.socketId = j
  · subst h
    simp [Service.shutdownSocket, Service.onSession]
  · simp [Service.shutdownSocket, Service.onSession, h, Ne.symm h]

end Join

theorem closeThread_ok {v w : Service} {c : Client} (h : v.closeThread c = .ok w) :
    w = v ∨ ∃ th i, c.thread = some th ∧ v.threads.fetch th = some (some i) ∧
      (v.session i).returned = true ∧ w = v.join th.index i := by
  rw [Service.closeThread] at h
  split at h
  · cases h
  · rename_i th hth
    split at h
    · cases h
    · cases h
      exact .inl rfl
    · rename_i i hfetch
      split at h
      · cases h
        exact .inr ⟨th,i,hth,hfetch,‹_›,rfl⟩
      · cases h

theorem closeThread_owner {v : Service} {c : Client} {i : ℕ} (h : owner v c = some i)
    (hreturned : (v.session i).returned = true) :
    ∃ th, c.thread = some th ∧ v.threads.fetch th = some (some i) ∧
      v.closeThread c = .ok (v.join th.index i) := by
  obtain ⟨th,hth,hfetch⟩ := owner_some.mp h
  refine ⟨th,hth,hfetch,?_⟩
  rw [Service.closeThread, hth]
  simp only [hfetch, hreturned, if_true]

theorem address_eq {v : Service} {p th : Address} {i j : ℕ}
    (hp : v.threads.fetch p = some (some j)) (hth : v.threads.fetch th = some (some i))
    (hindex : p.index = th.index) : p = th := by
  have hblock := (Growing.fetch_some.mp hp).1.trans (Growing.fetch_some.mp hth).1.symm
  cases p
  cases th
  simp_all

/-- A join does not take the threads of other sessions away. -/
theorem owner_join {v : Service} {th : Address} {i j : ℕ} {c x : Client}
    (hth : v.threads.fetch th = some (some i)) (hx : owner v x = some j) (hne : j ≠ i) :
    owner ((v.join th.index i).shutdownSocket c) x = some j := by
  obtain ⟨p,hp,hfetch⟩ := owner_some.mp hx
  refine owner_some.mpr ⟨p,hp,(fetch_join (i := i)).mpr ⟨hfetch,fun hindex => hne ?_⟩⟩
  rw [address_eq hfetch hth hindex, hth] at hfetch
  exact (Option.some.inj (Option.some.inj hfetch)).symm

section Loop
variable (before : List Client) {c : Client} {v : Service}

theorem closeDead_keep {cs : List Client} (hc : ¬ c.isDead = true) :
    Service.closeDead before (c::cs) v = Service.closeDead (before++[c]) cs v := by
  rw [Service.closeDead.eq_def]
  exact if_neg hc

theorem closeDead_last (hc : c.isDead = true) :
    Service.closeDead before [c] v = v.closeThread c >>= fun _ => .error (.crash .pastTheEnd) := by
  rw [Service.closeDead.eq_def]
  exact if_pos hc

theorem closeDead_erase (hc : c.isDead = true) (c' : Client) (cs : List Client) :
    Service.closeDead before (c::c'::cs) v = v.closeThread c >>= fun w =>
      Service.closeDead (before++[c']) cs (w.shutdownSocket c) := by
  rw [Service.closeDead.eq_def]
  exact if_pos hc

def Finds (v : Service) (c : Client) (i : Option ℕ) : Prop :=
  ∀ j, i = some j → owner v c = some j ∧ (v.session j).returned = true

/-- What a loop that returns has done: it has joined at most one session for each
erased client, and shut its socket down. -/
structure Swept (v w : Service) (cs : List Client) (is : List (Option ℕ)) : Prop where
  overrun : (sweep Client.isDead cs).overrun = false
  finds : List.Forall₂ (Finds v) (sweep Client.isDead cs).erased is
  joins : ∀ j, (w.session j).joins = (v.session j).joins+is.count (some j)
  shuts : ∀ j, (w.session j).shuts =
    (v.session j).shuts+((sweep Client.isDead cs).erased.map Client.socketId).count j

theorem swept_erase (c' : Client) {cs : List Client} {w u : Service} {is : List (Option ℕ)}
    (hc : c.isDead = true) (hw : v.closeThread c = .ok w)
    (h : Swept (w.shutdownSocket c) u cs is) : ∃ i, Swept v u (c::c'::cs) (i::is) := by
  have hshuts : ∀ j, (w.session j).shuts = (v.session j).shuts → (u.session j).shuts =
      (v.session j).shuts+((c::(sweep Client.isDead cs).erased).map Client.socketId).count j := by
    intro j hj
    rw [h.shuts, (shutdownSocket_session w j c).2.2, hj, List.map_cons, List.count_cons]
    simp only [beq_iff_eq]
    omega
  rcases closeThread_ok hw with rfl | ⟨th,i,hth,hfetch,hreturned,rfl⟩
  · refine ⟨none,?_⟩
    constructor
    · rw [sweep_erase hc]
      exact h.overrun
    · rw [sweep_erase hc]
      refine .cons nofun (h.finds.imp fun x i hx j hj => ?_)
      obtain ⟨howner,hreturned⟩ := hx j hj
      exact ⟨howner,(shutdownSocket_session w j c).1 ▸ hreturned⟩
    · intro j
      rw [h.joins, (shutdownSocket_session w j c).2.1]
      simp
    · intro j
      rw [sweep_erase hc]
      exact hshuts j rfl
  · refine ⟨some i,?_⟩
    constructor
    · rw [sweep_erase hc]
      exact h.overrun
    · rw [sweep_erase hc]
      constructor
      · intro j hj
        obtain rfl := Option.some.inj hj
        exact ⟨owner_some.mpr ⟨th,hth,hfetch⟩,hreturned⟩
      · refine h.finds.imp fun x i' hx j hj => ?_
        obtain ⟨howner,hj⟩ := hx j hj
        obtain ⟨p,hp,hp'⟩ := owner_some.mp howner
        refine ⟨owner_some.mpr ⟨p,hp,((fetch_join (i := i)).mp hp').1⟩,?_⟩
        rwa [(shutdownSocket_session _ j c).1, (join_session v th.index i j).1] at hj
    · intro j
      rw [h.joins, (shutdownSocket_session _ j c).2.1, (join_session v th.index i j).2.2,
        List.count_cons]
      simp only [beq_iff_eq, Option.some.injEq]
      omega
    · intro j
      rw [sweep_erase hc]
      exact hshuts j (join_session v th.index i j).2.1

theorem swept_keep {cs : List Client} {u : Service} {is : List (Option ℕ)}
    (hc : ¬ c.isDead = true) (h : Swept v u cs is) : Swept v u (c::cs) is := by
  constructor
  · rw [sweep_keep hc]
    exact h.overrun
  · rw [sweep_keep hc]
    exact h.finds
  · exact h.joins
  · rw [sweep_keep hc]
    exact h.shuts

theorem closeDead_returned {cs : List Client} {w : Service}
    (h : Service.closeDead before cs v = .ok w) :
    w.clients = before++(sweep Client.isDead cs).kept ∧ ∃ is, Swept v w cs is := by
  induction cs using sweep.induct Client.isDead generalizing before v with
  | case1 =>
    rw [Service.closeDead] at h
    cases h
    exact ⟨(List.append_nil _).symm,[],rfl,.nil,fun _ => rfl,fun _ => rfl⟩
  | case2 c hc =>
    rw [closeDead_last before hc] at h
    cases hw : v.closeThread c with
    | error e =>
      rw [hw] at h
      cases h
    | ok w' =>
      rw [hw] at h
      cases h
  | case3 c hc c' cs ih =>
    rw [closeDead_erase before hc] at h
    cases hw : v.closeThread c with
    | error e =>
      rw [hw] at h
      cases h
    | ok w' =>
      rw [hw] at h
      obtain ⟨hclients,is,hswept⟩ := ih (before++[c']) h
      obtain ⟨i,hswept⟩ := swept_erase c' hc hw hswept
      rw [hclients, sweep_erase hc]
      exact ⟨by rw [List.append_assoc]; rfl,i::is,hswept⟩
  | case4 c cs hc ih =>
    rw [closeDead_keep before hc] at h
    obtain ⟨hclients,is,hswept⟩ := ih (before++[c]) h
    rw [hclients, sweep_keep hc]
    exact ⟨by rw [List.append_assoc]; rfl,is,swept_keep hc hswept⟩

theorem closeDead_returns {cs : List Client} {js : List ℕ}
    (hover : (sweep Client.isDead cs).overrun = false)
    (howners : (sweep Client.isDead cs).erased.map (owner v) = js.map some) (hjs : js.Nodup)
    (hreturned : ∀ j ∈ js, (v.session j).returned = true) :
    ∃ w, Service.closeDead before cs v = .ok w ∧
      ∀ j, (w.session j).joins = (v.session j).joins+js.count j := by
  induction cs using sweep.induct Client.isDead generalizing before v js with
  | case1 =>
    obtain rfl : js = [] := by simpa [sweep] using howners.symm
    exact ⟨_,rfl,fun _ => rfl⟩
  | case2 c hc =>
    rw [sweep_last hc] at hover
    cases hover
  | case3 c hc c' cs ih =>
    rw [sweep_erase hc] at hover howners
    cases js with
    | nil => cases howners
    | cons i js =>
      obtain ⟨hi,howners⟩ := List.cons.inj howners
      obtain ⟨hnot,hjs⟩ := List.nodup_cons.mp hjs
      obtain ⟨hret,hreturned⟩ := List.forall_mem_cons.mp hreturned
      obtain ⟨th,hth,hfetch,hclose⟩ := closeThread_owner hi hret
      -- the other erased clients do not lead to the thread that is joined here
      have hkeeps : (sweep Client.isDead cs).erased.map
          (owner ((v.join th.index i).shutdownSocket c)) = js.map some := by
        rw [← howners]
        apply List.map_congr_left
        intro x hx
        have hmem : owner v x ∈ js.map some := howners ▸ List.mem_map_of_mem hx
        obtain ⟨j,hj,hown⟩ := List.mem_map.mp hmem
        rw [← hown]
        exact owner_join hfetch hown.symm fun heq => hnot (heq ▸ hj)
      have hstill : ∀ j ∈ js,
          (((v.join th.index i).shutdownSocket c).session j).returned = true := by
        intro j hj
        rw [(shutdownSocket_session _ j c).1, (join_session v th.index i j).1]
        exact hreturned j hj
      obtain ⟨w,hw,hjoins⟩ := ih (before++[c']) hover hkeeps hjs hstill
      rw [closeDead_erase before hc, hclose]
      refine ⟨w,hw,fun j => ?_⟩
      rw [hjoins, (shutdownSocket_session _ j c).2.1, (join_session v th.index i j).2.2,
        List.count_cons]
      simp only [beq_iff_eq]
      omega
  | case4 c cs hc ih =>
    rw [sweep_keep hc] at hover howners
    rw [closeDead_keep before hc]
    exact ih (before++[c]) hover howners hjs hreturned

end Loop

def dead (v : Service) : List Client := v.clients.filter Client.isDead

def Closings (v w : Service) (i n : ℕ) : Prop :=
  (w.session i).joins = (v.session i).joins+n ∧ (w.session i).shuts = (v.session i).shuts+n

/-- The alive clients are left in their order. The thread and the socket of each
dead one have been closed once, and those of no alive one. -/
structure Filtered (v w : Service) : Prop where
  reaped : v.closeDeadSockets = .ok w
  clients : w.clients = v.clients.filter Client.isAlive
  dead : ∀ c ∈ v.clients, c.isDead = true → Closings v w c.socketId 1
  alive : ∀ c ∈ v.clients, c.isAlive = true → Closings v w c.socketId 0

/-- The dead clients are not adjacent and not last, no two clients of which one is
dead have the same socket, and the saved addresses of the dead clients lead to
their own sessions, in whatever order. -/
structure Closable (v : Service) : Prop where
  separated : Separated Client.isDead v.clients
  distinct : ((dead v).map Client.socketId).Nodup
  apart : ∀ c ∈ dead v, ∀ c' ∈ v.clients, c'.isAlive = true → c.socketId ≠ c'.socketId
  owners : ((dead v).map (owner v)).Perm ((dead v).map fun c => some c.socketId)
  returned : ∀ c ∈ dead v, (v.session c.socketId).returned = true

theorem perm_some {is : List (Option ℕ)} {js : List ℕ} (h : is.Perm (js.map some)) :
    ∃ ks : List ℕ, is = ks.map some ∧ ks.Perm js := by
  have hjs : List.Forall₂ (fun i j => i = some j) (js.map some) js :=
    List.forall₂_map_left_iff.mpr (List.forall₂_same.mpr fun _ _ => rfl)
  obtain ⟨ks,hks,hperm⟩ := List.perm_comp_forall₂ h hjs
  refine ⟨ks,?_,hperm⟩
  rw [← List.forall₂_eq_eq_eq, List.forall₂_map_right_iff]
  exact hks

theorem filter_alive (cs : List Client) :
    cs.filter (fun c => !c.isDead) = cs.filter Client.isAlive := by
  congr 1
  funext c
  rw [Client.isDead, Bool.not_not]

theorem finds_all {v : Service} {cs : List Client} {is : List (Option ℕ)}
    (hdistinct : (cs.map Client.socketId).Nodup) (hfinds : List.Forall₂ (Finds v) cs is)
    (hcount : ∀ c ∈ cs, some c.socketId ∈ is) :
    (cs.map (owner v)).Perm (cs.map fun c => some c.socketId) ∧
      ∀ c ∈ cs, (v.session c.socketId).returned = true := by
  have hids : cs.map (fun c => some c.socketId) = (cs.map Client.socketId).map some := by simp
  have hperm : is.Perm (cs.map fun c => some c.socketId) := by
    have hnodup : (cs.map fun c => some c.socketId).Nodup := by
      rw [hids]
      exact hdistinct.map (Option.some_injective _)
    have hsub : cs.map (fun c => some c.socketId) ⊆ is := by
      intro i hi
      obtain ⟨c,hc,rfl⟩ := List.mem_map.mp hi
      exact hcount c hc
    refine ((List.subperm_of_subset hnodup hsub).perm_of_length_le ?_).symm
    rw [List.length_map, hfinds.length_eq]
  have hsome : ∀ i ∈ is, ∃ j, i = some j := by
    intro i hi
    obtain ⟨c,-,rfl⟩ := List.mem_map.mp (hperm.mem_iff.mp hi)
    exact ⟨_,rfl⟩
  have howners : cs.map (owner v) = is := by
    clear hperm hcount hdistinct hids
    induction hfinds with
    | nil => rfl
    | cons hfind hrest ih =>
      obtain ⟨⟨j,rfl⟩,htail⟩ := List.forall_mem_cons.mp hsome
      rw [List.map_cons, (hfind j rfl).1, ih htail]
  refine ⟨howners ▸ hperm,fun c hc => ?_⟩
  obtain ⟨k,hk,heq⟩ := List.mem_iff_getElem.mp (hcount c hc)
  obtain ⟨-,hget⟩ := List.forall₂_iff_get.mp hfinds
  exact (hget k (by rw [hfinds.length_eq]; exact hk) hk _ heq).2

theorem filtered_closable {v w : Service} (h : Filtered v w) : Closable v := by
  obtain ⟨hreaped,hclients,hdead,halive⟩ := h
  obtain ⟨hkept,is,hswept⟩ := closeDead_returned [] hreaped
  have hsep : Separated Client.isDead v.clients := by
    apply (sweep_filters_iff v.clients).mp
    exact ⟨hswept.overrun,by rw [filter_alive, ← hclients, hkept, List.nil_append]⟩
  obtain ⟨-,hfinds,hjoins,hshuts⟩ := hswept
  rw [sweep_erased hsep] at hfinds hshuts
  have hmem : ∀ c ∈ dead v, c ∈ v.clients ∧ c.isDead = true := fun c hc => List.mem_filter.mp hc
  have hjoined : ∀ c ∈ dead v, some c.socketId ∈ is := by
    intro c hc
    have hclosed := (hdead c (hmem c hc).1 (hmem c hc).2).1
    rw [hjoins] at hclosed
    exact List.count_pos_iff.mp (by omega)
  have hdistinct : ((dead v).map Client.socketId).Nodup := by
    rw [List.nodup_iff_count_le_one]
    intro i
    by_contra hcount
    have hi : i ∈ (dead v).map Client.socketId := List.count_pos_iff.mp (by omega)
    obtain ⟨c,hc,rfl⟩ := List.mem_map.mp hi
    have hclosed := (hdead c (hmem c hc).1 (hmem c hc).2).2
    rw [hshuts] at hclosed
    exact hcount (by rw [dead]; omega)
  obtain ⟨howners,hreturned⟩ := finds_all hdistinct hfinds hjoined
  refine ⟨hsep,hdistinct,?_,howners,hreturned⟩
  intro c hc c' hc' ha heq
  have hclosed := (hdead c (hmem c hc).1 (hmem c hc).2).1
  have hopen := (halive c' hc' ha).1
  rw [heq] at hclosed
  omega

theorem closable_filtered {v : Service} (h : Closable v) : ∃ w, Filtered v w := by
  obtain ⟨hover,hkept⟩ := (sweep_filters_iff v.clients).mpr h.separated
  have herased := sweep_erased h.separated
  obtain ⟨js,hjs,hids⟩ : ∃ js : List ℕ, (dead v).map (owner v) = js.map some ∧
      js.Perm ((dead v).map Client.socketId) := by
    have hmap : (dead v).map (fun c => some c.socketId) =
        ((dead v).map Client.socketId).map some := by simp
    have hp := h.owners
    rw [hmap] at hp
    exact perm_some hp
  have hreturned : ∀ j ∈ js, (v.session j).returned = true := by
    intro j hj
    obtain ⟨c,hc,rfl⟩ := List.mem_map.mp (hids.mem_iff.mp hj)
    exact h.returned c hc
  obtain ⟨w,hw,hjoins⟩ := closeDead_returns [] hover (by rw [herased]; exact hjs)
    (hids.nodup_iff.mpr h.distinct) hreturned
  obtain ⟨hclients,is,hswept⟩ := closeDead_returned [] hw
  have hshuts := hswept.shuts
  rw [herased] at hshuts
  refine ⟨w,hw,?_,?_,?_⟩
  · rw [hclients, hkept, filter_alive, List.nil_append]
  · intro c hc hdead
    have hone : ((dead v).map Client.socketId).count c.socketId = 1 :=
      List.count_eq_one_of_mem h.distinct
        (List.mem_map_of_mem (List.mem_filter.mpr ⟨hc,hdead⟩))
    exact ⟨by rw [hjoins, hids.count_eq, hone],by rw [hshuts]; exact congrArg _ hone⟩
  · intro c hc ha
    have hzero : ((dead v).map Client.socketId).count c.socketId = 0 := by
      rw [List.count_eq_zero]
      intro hmem
      obtain ⟨c',hc',heq⟩ := List.mem_map.mp hmem
      exact h.apart c' hc' c hc ha heq
    exact ⟨by rw [hjoins, hids.count_eq, hzero],by rw [hshuts]; exact congrArg _ hzero⟩

/-- `close_dead_sockets` is a filter exactly on the vectors whose dead clients can
be closed. -/
theorem closeDeadSockets_filters_iff (v : Service) : (∃ w, Filtered v w) ↔ Closable v := by
  constructor
  · rintro ⟨w,hw⟩
    exact filtered_closable hw
  · exact closable_filtered

def returnedSession (id : ℕ) : Session := { Session.new id with returned := true }

def deadLast : Service :=
  ⟨.filled 1 (some 0),[⟨0,false,false,some ⟨0,0⟩⟩],returnedSession,1⟩

def deadAdjacent : Service :=
  ⟨(Growing.filled 2 (some 0)).assign 1 (some 1),
    [⟨0,false,false,some ⟨0,0⟩⟩,⟨1,false,false,some ⟨0,1⟩⟩,⟨2,true,false,none⟩],returnedSession,3⟩

def deadBusy : Service :=
  ⟨.filled 1 (some 0),[⟨0,false,false,some ⟨0,0⟩⟩,⟨1,true,false,none⟩],.new,2⟩

theorem closeDeadSockets_unfiltered :
    deadLast.closeDeadSockets = .error (.crash .pastTheEnd) ∧
    (∃ w, deadAdjacent.closeDeadSockets = .ok w ∧
      w.clients = [⟨1,false,false,some ⟨0,1⟩⟩,⟨2,true,false,none⟩]) ∧
    deadBusy.closeDeadSockets = .error .waits ∧
    ¬ ∀ v : Service, (∀ c ∈ v.clients, owner v c = some c.socketId) →
      (∀ c ∈ v.clients, (v.session c.socketId).returned = true) → ∃ w, Filtered v w := by
  refine ⟨rfl,⟨_,rfl,rfl⟩,rfl,fun h => ?_⟩
  obtain ⟨w,hw⟩ := h deadLast
    (fun c hc => by
      rw [List.mem_singleton.mp hc]
      rfl)
    (fun _ _ => rfl)
  have hcrash : deadLast.closeDeadSockets = .error (.crash .pastTheEnd) := rfl
  have hreaped := hcrash.symm.trans hw.reaped
  cases hreaped

end Workshop.FtpDeadClients
