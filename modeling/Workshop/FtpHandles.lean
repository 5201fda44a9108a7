import Workshop.FtpAcceptor

/-!
# The saved addresses of the threads

A client of the server keeps the address of its thread inside a vector that is
full from the start and doubles when it is full again. The first growth finds
no client, and every later one loses the addresses of all clients in the list.
-/

set_option autoImplicit false

namespace Workshop.FtpHandles
open Workshop.GrowingVector Workshop.FairRun Workshop.FtpAcceptor

/-- The saved address leads to the thread that serves the client. -/
def HandleValid (v : Service) (c : Client) : Prop :=
  ∃ p, c.thread = some p ∧ v.threads.fetch p = some (some c.socketId)

def HandlesValid (s : State) : Prop := ∀ c ∈ s.service.clients, HandleValid s.service c

/-- A thread that is started while the vector is full finds no client listed. -/
def StartsSafely (s t : State) : Prop :=
  ∀ c, s.acceptor = .spawning c → t.acceptor ≠ s.acceptor → s.service.threads.Full →
    s.service.clients = []

section Steps
variable {s t : State}

theorem handleValid_iff (h : Inv s) {c : Client} (hc : c ∈ s.service.clients) :
    HandleValid s.service c ↔ Current s.service c := by
  obtain ⟨p,hp,-,helem⟩ := h.accounts.handle c (List.mem_append_left _ hc)
  constructor
  · rintro ⟨p',hp',hfetch⟩
    exact ⟨p',hp',(Growing.fetch_some.mp hfetch).1⟩
  · rintro ⟨p',hp',hblock⟩
    rw [hp] at hp'
    cases hp'
    exact ⟨p,hp,Growing.fetch_some.mpr ⟨hblock,helem⟩⟩

theorem handlesValid_iff (h : Inv s) :
    HandlesValid s ↔ ∀ c ∈ s.service.clients, Current s.service c :=
  forall₂_congr fun _ hc => handleValid_iff h hc

theorem step_current {m : Move} (h : Inv s) (hm : step m s = some t) (hsafe : StartsSafely s t)
    (hcurrent : ∀ c ∈ s.service.clients, Current s.service c) :
    ∀ c ∈ t.service.clients, Current t.service c := by
  intro c hc
  cases step_changes h hm with
  | same hclients hthreads _ =>
    rw [hclients] at hc
    rw [Current, hthreads]
    exact hcurrent c hc
  | emptied hempty _ =>
    rw [hempty.clients] at hc
    cases hc
  | started client hplace hafter hservice =>
    rw [hservice] at hc ⊢
    by_cases hfull : s.service.threads.Full
    · have hnone := hsafe client hplace (by rw [hplace, hafter]; nofun) hfull
      rw [Service.spawn, hnone] at hc
      cases hc
    · obtain ⟨p,hp,hblock⟩ := hcurrent c hc
      refine ⟨p,hp,?_⟩
      rw [Service.spawn, Growing.emplaceBack_block, if_neg hfull, hblock]
  | listed client hplace hservice =>
    rw [hservice] at hc ⊢
    rcases List.mem_append.mp hc with hc | hc
    · exact hcurrent c hc
    · have hfresh := h.fresh
      rw [pending, hplace] at hfresh
      exact hfresh c hc

theorem moved_lost {m : Move} {client : Client} (h : Inv s) (hm : step m s = some t)
    (hplace : s.acceptor = .spawning client) (hmoved : t.acceptor ≠ s.acceptor)
    (hfull : s.service.threads.Full) (hlisted : s.service.clients ≠ []) : ¬ HandlesValid t := by
  intro hvalid
  obtain ⟨c,hc⟩ := List.exists_mem_of_ne_nil _ hlisted
  obtain ⟨p,hp,hle,-⟩ := h.accounts.handle c (List.mem_append_left _ hc)
  have hservice : t.service = s.service.spawn client := by
    rw [step_spawning hm hplace hmoved]
  have hct : c ∈ t.service.clients := by
    rw [hservice]
    exact hc
  obtain ⟨p',hp',hfetch⟩ := hvalid c hct
  rw [hp] at hp'
  cases hp'
  rw [hservice, Service.spawn, Growing.fetch_moved hfull hle] at hfetch
  cases hfetch

end Steps

/-- The addresses of the listed clients are valid throughout a run exactly when
no thread is started with a full vector while clients are listed. -/
theorem handles_valid_iff (r : Run step initial) :
    (∀ k, HandlesValid (r.state k)) ↔ ∀ k, StartsSafely (r.state k) (r.state (k+1)) := by
  constructor
  · intro hvalid k client hplace hmoved hfull
    by_contra hlisted
    rcases r.next k with hpause | ⟨m,hm⟩
    · exact hmoved (by rw [hpause])
    · exact moved_lost (run_inv r k) hm hplace hmoved hfull hlisted (hvalid (k+1))
  · intro hsafe k
    rw [handlesValid_iff (run_inv r k)]
    induction k with
    | zero =>
      rw [r.init]
      exact nofun
    | succ k ih =>
      rcases r.next k with hpause | ⟨m,hm⟩
      · rwa [hpause]
      · exact step_current (run_inv r k) hm (hsafe k) ih

structure Sized (s : State) : Prop where
  length : s.service.threads.elems.length = 200+s.service.spawned
  capacity : ∃ j, s.service.threads.capacity = 200*2^j ∧
    (j = 0 ∨ 200*2^j < 2*(200+s.service.spawned))

theorem initial_sized : Sized initial := by
  constructor
  · exact List.length_replicate
  · exact ⟨0,rfl,.inl rfl⟩

theorem step_sized {s t : State} {m : Move} (h : Inv s) (hm : step m s = some t) (hs : Sized s) :
    Sized t := by
  obtain ⟨hlength,j,hcapacity,hj⟩ := hs
  cases step_changes h hm with
  | same _ hthreads hspawned =>
    constructor
    · rw [hthreads, hspawned, hlength]
    · rw [hthreads, hspawned]
      exact ⟨j,hcapacity,hj⟩
  | emptied hempty _ =>
    constructor
    · rw [hempty.length, hempty.spawned, hlength]
    · rw [hempty.capacity, hempty.spawned]
      exact ⟨j,hcapacity,hj⟩
  | started client _ _ hservice =>
    rw [Service.spawn] at hservice
    constructor
    · rw [hservice]
      simp only [Growing.emplaceBack_elems, List.length_append, List.length_singleton, hlength]
      omega
    · rw [hservice]
      simp only [Growing.emplaceBack_capacity]
      by_cases hfull : s.service.threads.Full
      · have hexact : s.service.threads.elems.length = s.service.threads.capacity := hfull
        refine ⟨j+1,?_,.inr ?_⟩
        · rw [if_pos hfull, pow_succ]
          omega
        · rw [pow_succ]
          omega
      · rw [if_neg hfull]
        exact ⟨j,hcapacity,hj.imp_right fun hlt => by omega⟩
  | listed client _ hservice =>
    rw [Service.pushBack] at hservice
    constructor
    · rw [hservice, hlength]
    · rw [hservice]
      exact ⟨j,hcapacity,hj⟩

/-- The vector is full before the threads number 1, 201, 601, 1401 and so on. -/
theorem full_iff_spawned (r : Run step initial) (k : ℕ) :
    (r.state k).service.threads.Full ↔ ∃ j, (r.state k).service.spawned = 200*2^j-200 := by
  have hsized : Sized (r.state k) := by
    induction k with
    | zero =>
      rw [r.init]
      exact initial_sized
    | succ k ih =>
      rcases r.next k with hpause | ⟨m,hm⟩
      · rwa [hpause]
      · exact step_sized (run_inv r k) hm ih
  obtain ⟨hlength,j,hcapacity,hj⟩ := hsized
  have hpos := Nat.one_le_two_pow (n := j)
  rw [Growing.Full, hlength, hcapacity]
  constructor
  · intro hfull
    exact ⟨j,by omega⟩
  · rintro ⟨i,hi⟩
    have hone := Nat.one_le_two_pow (n := i)
    have hfits := (r.state k).service.threads.fits
    rw [hlength, hcapacity] at hfits
    have hle : i ≤ j := (Nat.pow_le_pow_iff_right (by omega : 1 < 2)).mp (by omega)
    have hge : j ≤ i := by
      rcases hj with rfl | hlt
      · exact Nat.zero_le i
      · have hpow : 2^j < 2^(i+1) := by
          rw [pow_succ]
          omega
        have := (Nat.pow_lt_pow_iff_right (by omega : 1 < 2)).mp hpow
        omega
    have heq : i = j := le_antisymm hle hge
    rw [heq] at hi
    omega

def acceptNext (s : State) : State := (step (.acceptor true) s).getD s

def acceptRun : Run step initial where
  state k := acceptNext^[k] initial
  init := rfl
  next k := by
    rw [Function.iterate_succ_apply']
    cases h : step (.acceptor true) (acceptNext^[k] initial) with
    | none => exact .inl (by rw [acceptNext, h]; rfl)
    | some t => exact .inr ⟨.acceptor true,by rw [acceptNext, h, Option.getD_some]⟩

def atAccept (v : Service) : State := ⟨.typing,.accepting,.listening,true,v,none⟩

theorem accept_round {v : Service} (halive : ∀ c ∈ v.clients, c.isAlive = true) :
    ∃ v', acceptNext^[6] (atAccept v) = atAccept v' ∧ (∀ c ∈ v'.clients, c.isAlive = true) ∧
      v'.clients.length = v.clients.length+1 ∧ v'.spawned = v.spawned+1 := by
  have hlisted : ∀ c ∈ ((v.spawn (.ofId v.spawned)).pushBack ((Client.ofId v.spawned).saveThread
      (v.spawn (.ofId v.spawned)).threads.back)).clients, c.isAlive = true := by
    intro c hc
    rcases List.mem_append.mp hc with hc | hc
    · exact halive c hc
    · rw [List.mem_singleton.mp hc]
      rfl
  refine ⟨_,?_,hlisted,List.length_append,rfl⟩
  have hreap : acceptNext ⟨.typing,.reaping,.listening,true,(v.spawn (.ofId v.spawned)).pushBack
      ((Client.ofId v.spawned).saveThread (v.spawn (.ofId v.spawned)).threads.back),none⟩ =
      ⟨.typing,.testing,.listening,true,(v.spawn (.ofId v.spawned)).pushBack
        ((Client.ofId v.spawned).saveThread (v.spawn (.ofId v.spawned)).threads.back),none⟩ := by
    simp only [acceptNext, step, acceptorMove, closeDeadSockets_alive hlisted]
    rfl
  exact congrArg acceptNext hreap

theorem accept_many (m : ℕ) :
    ∃ k v, acceptRun.state k = atAccept v ∧ (∀ c ∈ v.clients, c.isAlive = true) ∧
      v.clients.length = m ∧ v.spawned = m := by
  induction m with
  | zero => exact ⟨2,_,rfl,nofun,rfl,rfl⟩
  | succ m ih =>
    obtain ⟨k,v,hv,halive,hclients,hspawned⟩ := ih
    obtain ⟨v',hv',halive',hclients',hspawned'⟩ := accept_round halive
    refine ⟨6+k,v',?_,halive',by rw [hclients', hclients],by rw [hspawned', hspawned]⟩
    rw [← hv', ← hv]
    exact Function.iterate_add_apply ..

theorem acceptRun_next (k : ℕ) :
    acceptRun.state (k+1) = acceptNext (acceptRun.state k) := Function.iterate_succ_apply' ..

/-- With 201 connections at once the addresses of the first 200 are lost. -/
theorem handles_lost : ¬ ∀ k, HandlesValid (acceptRun.state k) := by
  intro hvalid
  obtain ⟨k,v,hv,-,hclients,hspawned⟩ := accept_many 200
  have hspawning : acceptRun.state (k+1) =
      ⟨.typing,.spawning (.ofId v.spawned),.listening,true,v,none⟩ := by
    rw [acceptRun_next, hv]
    rfl
  have hstarted : acceptRun.state (k+1+1) =
      ⟨.typing,.saving (.ofId v.spawned),.listening,true,v.spawn (.ofId v.spawned),none⟩ := by
    rw [acceptRun_next, hspawning]
    rfl
  have hfull : (acceptRun.state (k+1)).service.threads.Full := by
    rw [full_iff_spawned]
    exact ⟨1,by rw [hspawning]; exact hspawned⟩
  have hlisted : (acceptRun.state (k+1)).service.clients ≠ [] := by
    rw [hspawning]
    intro hnil
    have hnil : v.clients = [] := hnil
    rw [hnil] at hclients
    cases hclients
  rcases acceptRun.next (k+1) with hpause | ⟨m,hm⟩
  · rw [hspawning, hstarted] at hpause
    cases hpause
  · refine moved_lost (run_inv acceptRun _) hm (by rw [hspawning]) ?_ hfull hlisted (hvalid _)
    rw [hspawning, hstarted]
    nofun

end Workshop.FtpHandles
