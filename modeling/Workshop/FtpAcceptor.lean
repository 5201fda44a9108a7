import Workshop.GrowingVector
import Workshop.FairRun

/-!
# The accepting thread and the shutdown of the file server

`run_server` starts a thread for every connection and keeps a list of the
clients, which it shares with the main thread that waits for the quit command.
Every statement of the two threads is one move. Connections are numbered in the
order of their arrival. A `join` returns when the session has: for the clients
of `close_all_sockets` it comes behind the shutdown of the socket, which ends
the session, while `close_dead_sockets` joins first.
-/

set_option autoImplicit false

namespace Workshop.FtpAcceptor
open Workshop.GrowingVector Workshop.FairRun

/-- The fields of `Client` that the server uses for a connection. Without
`save_thread` the pointer has no value. -/
structure Client where
  socketId : ℕ
  isAlive : Bool
  quit : Bool
  thread : Option Address
  deriving DecidableEq, Repr

def Client.ofId (id : ℕ) : Client := ⟨id,true,false,none⟩

def Client.saveThread (c : Client) (th : Address) : Client := { c with thread := some th }

def Client.isDead (c : Client) : Bool := !c.isAlive

structure Session where
  cli : Client
  returned : Bool
  shuts : ℕ
  joins : ℕ
  deriving DecidableEq, Repr

def Session.new (id : ℕ) : Session := ⟨.ofId id,false,0,0⟩

def Session.shut (x : Session) : Bool := decide (0 < x.shuts)

inductive Crash where
  | dangling
  | pastTheEnd
  | terminated
  deriving DecidableEq, Repr

/-- What keeps a call from its end: a crash, or a `join` while the session goes on. -/
inductive Stop where
  | crash (e : Crash)
  | waits
  deriving DecidableEq, Repr

/-- The list of clients, the threads of `run_server` (`none` is not joinable)
and the sessions, of which `spawned` have been started. -/
structure Service where
  threads : Growing (Option ℕ)
  clients : List Client
  session : ℕ → Session
  spawned : ℕ

namespace Service

def onSession (v : Service) (i : ℕ) (f : Session → Session) : Service :=
  { v with session := Function.update v.session i (f (v.session i)) }

@[simp] theorem onSession_self (v : Service) (i : ℕ) (f : Session → Session) :
    (v.onSession i f).session i = f (v.session i) := Function.update_self ..

theorem onSession_other (v : Service) {i j : ℕ} (h : j ≠ i) (f : Session → Session) :
    (v.onSession i f).session j = v.session j := Function.update_of_ne h ..

def shutdownSocket (v : Service) (c : Client) : Service :=
  v.onSession c.socketId fun x => { x with shuts := x.shuts+1 }

def finish (v : Service) (c : Client) : Service :=
  v.onSession c.socketId fun x => { x with returned := true }

def join (v : Service) (index i : ℕ) : Service :=
  { v.onSession i fun x => { x with joins := x.joins+1 } with
    threads := v.threads.assign index none }

def closeThread (v : Service) (c : Client) : Except Stop Service :=
  match c.thread with
  | none => .error (.crash .dangling)
  | some th =>
    match v.threads.fetch th with
    | none => .error (.crash .dangling)
    | some none => .ok v
    | some (some i) =>
      if (v.session i).returned then .ok (v.join th.index i) else .error .waits

/-- The loop of `close_all_sockets` on the clients from the last to the first. A
session whose socket is shut down ends, and the `join` waits for that. -/
def closeAll : List Client → Service → Except Stop Service
  | [], v => .ok v
  | c::cs, v =>
    ((v.shutdownSocket c).finish c).closeThread c >>= fun v =>
      closeAll cs { v with clients := v.clients.dropLast }

def closeAllSockets (v : Service) : Except Stop Service := closeAll v.clients.reverse v

/-- The loop of `close_dead_sockets` with the clients before and from the
iterator on. After an `erase` the iterator is moved over the client behind. -/
def closeDead (before : List Client) : List Client → Service → Except Stop Service
  | [], v => .ok { v with clients := before }
  | c::cs, v =>
    if c.isDead then
      v.closeThread c >>= fun v =>
        match cs with
        | [] => .error (.crash .pastTheEnd)
        | c'::cs => closeDead (before++[c']) cs (v.shutdownSocket c)
    else closeDead (before++[c]) cs v

def closeDeadSockets (v : Service) : Except Stop Service := closeDead [] v.clients v

def spawn (v : Service) (c : Client) : Service :=
  { v with
    threads := v.threads.emplaceBack (some c.socketId)
    session := Function.update v.session c.socketId (.new c.socketId)
    spawned := v.spawned+1 }

def pushBack (v : Service) (c : Client) : Service := { v with clients := v.clients++[c] }

end Service

inductive MainAt where
  | typing
  | closing
  | stopping
  | shutting
  | closingAgain
  | joining
  | ended
  | threw
  deriving DecidableEq, Repr

inductive AcceptorAt where
  | creating
  | testing
  | accepting
  | spawning (client : Client)
  | saving (client : Client)
  | pushing (client : Client)
  | reaping
  | closing
  | returning
  | returned
  deriving DecidableEq, Repr

inductive Listener where
  | unset
  | listening
  | closed
  deriving DecidableEq, Repr

structure State where
  main : MainAt
  acceptor : AcceptorAt
  socket : Listener
  isRunning : Bool
  service : Service
  crash : Option Crash

def initial : State :=
  ⟨.typing,.creating,.unset,true,⟨.filled 200 none,[],.new,0⟩,none⟩

inductive Turn where
  | query
  | quit
  | leave
  | throw
  deriving DecidableEq, Repr

inductive Move where
  | quitTyped
  | main
  | acceptor (answer : Bool)
  | session (i : ℕ) (turn : Turn)
  deriving DecidableEq, Repr

/-- Goes on behind an operation on the service unless it crashed. A `join` that
waits keeps the thread where it is. -/
def State.behind (s : State) (x : Except Stop Service) (next : State → State) : Option State :=
  match x with
  | .ok v => some (next { s with service := v })
  | .error (.crash e) => some { s with crash := some e }
  | .error .waits => none

/-- `shutdown` on a descriptor that is not open throws, and the stack is left
with a joinable thread. -/
def mainMove (s : State) : Option State :=
  match s.main with
  | .typing => none
  | .closing => s.behind s.service.closeAllSockets fun s => { s with main := .stopping }
  | .stopping => some { s with isRunning := false, main := .shutting }
  | .shutting =>
    if s.socket = .listening then some { s with socket := .closed, main := .closingAgain }
    else some { s with main := .threw, crash := some .terminated }
  | .closingAgain => s.behind s.service.closeAllSockets fun s => { s with main := .joining }
  | .joining => if s.acceptor = .returned then some { s with main := .ended } else none
  | .ended => none
  | .threw => none

/-- A failing constructor or `accept` throws, and `run_server` then closes the
clients as it does after its loop. A failing `accept` closes the socket. -/
def acceptorMove (answer : Bool) (s : State) : Option State :=
  match s.acceptor with
  | .creating =>
    if answer then some { s with socket := .listening, acceptor := .testing }
    else some { s with acceptor := .closing }
  | .testing => some { s with acceptor := if s.isRunning then .accepting else .closing }
  | .accepting =>
    if answer ∧ s.socket = .listening then
      some { s with acceptor := .spawning (.ofId s.service.spawned) }
    else some { s with socket := .closed, acceptor := .closing }
  | .spawning client =>
    some { s with service := s.service.spawn client, acceptor := .saving client }
  | .saving client =>
    some { s with acceptor := .pushing (client.saveThread s.service.threads.back) }
  | .pushing client => some { s with service := s.service.pushBack client, acceptor := .reaping }
  | .reaping => s.behind s.service.closeDeadSockets fun s => { s with acceptor := .testing }
  | .closing => s.behind s.service.closeAllSockets fun s => { s with acceptor := .returning }
  | .returning =>
    if ∀ th ∈ s.service.threads.elems, th = none then some { s with acceptor := .returned }
    else some { s with crash := some .terminated }
  | .returned => none

/-- The loop of `respond_client` goes on, sees the quit signal, or is left by
an exception. -/
def sessionMove (i : ℕ) (turn : Turn) (s : State) : Option State :=
  if i < s.service.spawned ∧ (s.service.session i).returned = false then
    match turn with
    | .query => if (s.service.session i).cli.quit then none else some s
    | .quit =>
      if (s.service.session i).cli.quit then none
      else some { s with service := s.service.onSession i fun x =>
        { x with cli := { x.cli with quit := true } } }
    | .leave =>
      if (s.service.session i).cli.quit then
        some { s with service := s.service.onSession i fun x => { x with returned := true } }
      else none
    | .throw => some { s with service := s.service.onSession i fun x => { x with returned := true } }
  else none

def step (m : Move) (s : State) : Option State :=
  if s.crash = none then
    match m with
    | .quitTyped => if s.main = .typing then some { s with main := .closing } else none
    | .main => mainMove s
    | .acceptor answer => acceptorMove answer s
    | .session i turn => sessionMove i turn s
  else none

structure Joined (x : Session) : Prop where
  once : x.joins = 1
  shut : x.shut = true
  returned : x.returned = true

def Current (v : Service) (c : Client) : Prop :=
  ∃ p, c.thread = some p ∧ p.block = v.threads.block

/-- The sessions that are not joined are those of the clients `live`. Each of
them has its own thread object at the index its client has saved. -/
structure Accounts (v : Service) (live : List Client) : Prop where
  alive : ∀ c ∈ live, c.isAlive = true
  handle : ∀ c ∈ live, ∃ p, c.thread = some p ∧ p.block ≤ v.threads.block ∧
    v.threads.elems[p.index]? = some (some c.socketId)
  distinct : (live.map Client.socketId).Nodup
  started : ∀ c ∈ live, c.socketId < v.spawned
  unjoined : ∀ c ∈ live, (v.session c.socketId).joins = 0
  joined : ∀ i < v.spawned, i ∉ live.map Client.socketId → Joined (v.session i)
  slots : ∀ k i, v.threads.elems[k]? = some (some i) →
    ∃ c ∈ live, c.socketId = i ∧ ∃ b, c.thread = some ⟨b,k⟩

def pending (s : State) : List Client :=
  match s.acceptor with
  | .saving c => [c.saveThread s.service.threads.back]
  | .pushing c => [c]
  | _ => []

def live (s : State) : List Client := s.service.clients++pending s

section Accounts
variable {v : Service} {before behind : List Client} {c : Client}

theorem accounts_clients (clients : List Client) (h : Accounts v before) :
    Accounts { v with clients := clients } before :=
  ⟨h.alive,h.handle,h.distinct,h.started,h.unjoined,h.joined,h.slots⟩

/-- A join is possible exactly through an address that is not lost. -/
theorem closeThread_cases (h : Accounts v (before++c::behind)) :
    ∃ p, c.thread = some p ∧ v.threads.elems[p.index]? = some (some c.socketId) ∧
      ((v.shutdownSocket c).finish c).closeThread c =
        if p.block = v.threads.block then
          .ok (((v.shutdownSocket c).finish c).join p.index c.socketId)
        else .error (.crash .dangling) := by
  obtain ⟨p,hp,-,helem⟩ := h.handle c (by simp)
  refine ⟨p,hp,helem,?_⟩
  rw [Service.closeThread, hp]
  by_cases hblock : p.block = v.threads.block
  · have hfetch : ((v.shutdownSocket c).finish c).threads.fetch p = some (some c.socketId) :=
      Growing.fetch_some.mpr ⟨hblock,helem⟩
    have hreturned : (((v.shutdownSocket c).finish c).session c.socketId).returned = true := by
      rw [Service.finish, Service.onSession_self]
    rw [if_pos hblock]
    simp only [hfetch, hreturned, if_true]
  · have hfetch : ((v.shutdownSocket c).finish c).threads.fetch p = none := by
      rw [Growing.fetch, if_neg]
      exact hblock
    rw [if_neg hblock]
    simp only [hfetch]

theorem distinct_other {c' : Client} (h : ((before++c::behind).map Client.socketId).Nodup)
    (hc' : c' ∈ before++behind) : c'.socketId ≠ c.socketId := by
  intro heq
  rw [List.map_append, List.map_cons, List.nodup_middle, List.nodup_cons, ← List.map_append] at h
  exact h.1 (heq ▸ List.mem_map_of_mem hc')

theorem accounts_join {p : Address} (h : Accounts v (before++c::behind)) (hp : c.thread = some p)
    (helem : v.threads.elems[p.index]? = some (some c.socketId)) :
    Accounts (((v.shutdownSocket c).finish c).join p.index c.socketId) (before++behind) := by
  have hsub : ∀ c' ∈ before++behind, c' ∈ before++c::behind := by
    intro c' hc'
    rcases List.mem_append.mp hc' with hc' | hc'
    · exact List.mem_append_left _ hc'
    · exact List.mem_append_right _ (List.mem_cons_of_mem _ hc')
  have hother : ∀ i, i ≠ c.socketId →
      (((v.shutdownSocket c).finish c).join p.index c.socketId).session i = v.session i := by
    intro i hi
    simp [Service.join, Service.finish, Service.shutdownSocket, Service.onSession, hi]
  have hself : (((v.shutdownSocket c).finish c).join p.index c.socketId).session c.socketId =
      ⟨(v.session c.socketId).cli,true,(v.session c.socketId).shuts+1,
        (v.session c.socketId).joins+1⟩ := by
    simp [Service.join, Service.finish, Service.shutdownSocket, Service.onSession]
  constructor
  · exact fun c' hc' => h.alive c' (hsub c' hc')
  · intro c' hc'
    obtain ⟨p',hp',hle,helem'⟩ := h.handle c' (hsub c' hc')
    refine ⟨p',hp',hle,?_⟩
    have hne : p.index ≠ p'.index := by
      intro heq
      rw [heq, helem'] at helem
      exact distinct_other h.distinct hc' (Option.some.inj (Option.some.inj helem))
    exact (Growing.elems_assign_ne hne).trans helem'
  · have hd := h.distinct
    rw [List.map_append, List.map_cons, List.nodup_middle, List.nodup_cons, ← List.map_append] at hd
    exact hd.2
  · exact fun c' hc' => h.started c' (hsub c' hc')
  · intro c' hc'
    rw [hother _ (distinct_other h.distinct hc')]
    exact h.unjoined c' (hsub c' hc')
  · intro i hi hnot
    by_cases hic : i = c.socketId
    · subst hic
      have hzero := h.unjoined c (by simp)
      rw [hself, hzero]
      exact ⟨rfl,by simp [Session.shut],rfl⟩
    · rw [hother i hic]
      apply h.joined i hi
      simpa [hic] using hnot
  · intro k i hk
    rcases Growing.mem_assign hk with ⟨-,hnone⟩ | ⟨hne,hk⟩
    · cases hnone
    · obtain ⟨c',hc',hid,b,hb⟩ := h.slots k i hk
      refine ⟨c',?_,hid,b,hb⟩
      rcases List.mem_append.mp hc' with hc' | hc'
      · exact List.mem_append_left _ hc'
      · rcases List.mem_cons.mp hc' with rfl | hc'
        · rw [hp] at hb
          cases hb
          exact absurd rfl hne
        · exact List.mem_append_right _ hc'

structure Emptied (v v' : Service) : Prop where
  clients : v'.clients = []
  block : v'.threads.block = v.threads.block
  length : v'.threads.elems.length = v.threads.elems.length
  capacity : v'.threads.capacity = v.threads.capacity
  spawned : v'.spawned = v.spawned

theorem closeAll_ok {cs pend : List Client} {v v' : Service} (h : Accounts v (cs.reverse++pend))
    (hcs : v.clients = cs.reverse) (hok : Service.closeAll cs v = .ok v') :
    Accounts v' pend ∧ Emptied v v' ∧ ∀ c ∈ cs, Current v c := by
  induction cs generalizing v with
  | nil =>
    cases hok
    exact ⟨h,⟨hcs,rfl,rfl,rfl,rfl⟩,by simp⟩
  | cons c cs ih =>
    rw [List.reverse_cons, List.append_assoc, List.singleton_append] at h
    obtain ⟨p,hp,helem,hclose⟩ := closeThread_cases h
    rw [Service.closeAll, hclose] at hok
    by_cases hblock : p.block = v.threads.block
    · rw [if_pos hblock] at hok
      have hjoined := accounts_clients v.clients.dropLast (accounts_join h hp helem)
      have hlast : v.clients.dropLast = cs.reverse := by
        rw [hcs, List.reverse_cons, List.dropLast_concat]
      obtain ⟨hacc,hempty,hcurrent⟩ := ih hjoined hlast hok
      have hlen : (v.threads.assign p.index none).elems.length = v.threads.elems.length :=
        List.length_set
      refine ⟨hacc,⟨hempty.clients,hempty.block,hempty.length.trans hlen,hempty.capacity,
        hempty.spawned⟩,?_⟩
      intro c' hc'
      rcases List.mem_cons.mp hc' with rfl | hc'
      · exact ⟨p,hp,hblock⟩
      · exact hcurrent c' hc'
    · rw [if_neg hblock] at hok
      cases hok

theorem closeAll_current {cs pend : List Client} {v : Service} (h : Accounts v (cs.reverse++pend))
    (hcurrent : ∀ c ∈ cs, Current v c) : ∃ v', Service.closeAll cs v = .ok v' := by
  induction cs generalizing v with
  | nil => exact ⟨v,rfl⟩
  | cons c cs ih =>
    rw [List.reverse_cons, List.append_assoc, List.singleton_append] at h
    obtain ⟨p,hp,helem,hclose⟩ := closeThread_cases h
    obtain ⟨p',hp',hblock⟩ := hcurrent c (by simp)
    rw [hp] at hp'
    cases hp'
    rw [Service.closeAll, hclose, if_pos hblock]
    apply ih (accounts_clients _ (accounts_join h hp helem))
    intro c' hc'
    exact hcurrent c' (List.mem_cons_of_mem _ hc')

theorem closeDead_alive {cs : List Client} (h : ∀ c ∈ cs, c.isAlive = true)
    (before : List Client) (v : Service) :
    Service.closeDead before cs v = .ok { v with clients := before++cs } := by
  induction cs generalizing before with
  | nil => rw [Service.closeDead, List.append_nil]
  | cons c cs ih =>
    have hdead : ¬ c.isDead := by simp [Client.isDead, h c]
    rw [Service.closeDead, if_neg hdead, ih (fun c' hc' => h c' (List.mem_cons_of_mem _ hc')),
      List.append_assoc, List.singleton_append]

theorem closeDeadSockets_alive {v : Service} (h : ∀ c ∈ v.clients, c.isAlive = true) :
    v.closeDeadSockets = .ok v := closeDead_alive h [] v

theorem accounts_spawn (h : Accounts v before) :
    Accounts (v.spawn (.ofId v.spawned))
      (before++[(Client.ofId v.spawned).saveThread (v.spawn (.ofId v.spawned)).threads.back]) := by
  have hnew : ∀ i, i ≠ v.spawned → (v.spawn (.ofId v.spawned)).session i = v.session i :=
    fun i hi => Function.update_of_ne hi _ _
  have hself : (v.spawn (.ofId v.spawned)).session v.spawned = .new v.spawned :=
    Function.update_self ..
  have hback := Growing.fetch_some.mp (Growing.fetch_back v.threads (some v.spawned))
  constructor
  · intro c hc
    rcases List.mem_append.mp hc with hc | hc
    · exact h.alive c hc
    · rw [List.mem_singleton.mp hc]
      rfl
  · intro c hc
    rcases List.mem_append.mp hc with hc | hc
    · obtain ⟨p,hp,hle,helem⟩ := h.handle c hc
      exact ⟨p,hp,hle.trans (Growing.block_le_emplaceBack _ _),
        Growing.elems_emplaceBack _ _ helem⟩
    · rw [List.mem_singleton.mp hc]
      exact ⟨_,rfl,hback.1.le,hback.2⟩
  · have hnot : v.spawned ∉ before.map Client.socketId := by
      intro hmem
      obtain ⟨c,hc,hid⟩ := List.mem_map.mp hmem
      exact absurd (h.started c hc) (by omega)
    rw [List.map_append, List.nodup_append]
    refine ⟨h.distinct,by simp,?_⟩
    rintro i hi j hj rfl
    rw [List.map_singleton, List.mem_singleton] at hj
    have hj : i = v.spawned := hj
    exact hnot (hj ▸ hi)
  · intro c hc
    rcases List.mem_append.mp hc with hc | hc
    · exact Nat.lt_succ_of_lt (h.started c hc)
    · rw [List.mem_singleton.mp hc]
      exact Nat.lt_succ_self _
  · intro c hc
    rcases List.mem_append.mp hc with hc | hc
    · rw [hnew _ (h.started c hc).ne]
      exact h.unjoined c hc
    · rw [List.mem_singleton.mp hc]
      exact congrArg Session.joins hself
  · intro i hi hnot
    rw [List.map_append, List.mem_append, not_or] at hnot
    have hne : i ≠ v.spawned := by
      rintro rfl
      exact hnot.2 (List.mem_singleton_self _)
    rw [hnew i hne]
    exact h.joined i (lt_of_le_of_ne (Nat.le_of_lt_succ hi) hne) hnot.1
  · intro k i hk
    rcases Growing.emplaceBack_cases hk with hk | ⟨hlast,hi⟩
    · obtain ⟨c,hc,hid,b,hb⟩ := h.slots k i hk
      exact ⟨c,List.mem_append_left _ hc,hid,b,hb⟩
    · refine ⟨_,List.mem_append_right _ (List.mem_singleton_self _),(Option.some.inj hi).symm,
        (v.threads.emplaceBack (some v.spawned)).block,?_⟩
      rw [hlast]
      rfl

theorem accounts_session {i : ℕ} {f : Session → Session} (h : Accounts v before)
    (hf : ∀ x, (f x).joins = x.joins ∧ (Joined x → Joined (f x))) :
    Accounts (v.onSession i f) before := by
  have hsession : ∀ j, ((v.onSession i f).session j).joins = (v.session j).joins ∧
      (Joined (v.session j) → Joined ((v.onSession i f).session j)) := by
    intro j
    by_cases hj : j = i
    · subst hj
      rw [Service.onSession_self]
      exact hf _
    · rw [Service.onSession_other _ hj]
      exact ⟨rfl,id⟩
  constructor
  · exact h.alive
  · exact h.handle
  · exact h.distinct
  · exact h.started
  · intro c hc
    rw [(hsession _).1]
    exact h.unjoined c hc
  · exact fun j hj hnot => (hsession j).2 (h.joined j hj hnot)
  · exact h.slots

end Accounts

structure Inv (s : State) : Prop where
  accounts : Accounts s.service (live s)
  fresh : ∀ c ∈ pending s, Current s.service c
  arriving : ∀ c, s.acceptor = .spawning c → c = .ofId s.service.spawned
  done : s.acceptor = .returning ∨ s.acceptor = .returned → s.service.clients = []

theorem initial_inv : Inv initial := by
  constructor
  · constructor
    · exact nofun
    · exact nofun
    · exact List.nodup_nil
    · exact nofun
    · exact nofun
    · exact nofun
    · intro k i hk
      have hmem := List.mem_of_getElem? hk
      cases List.eq_of_mem_replicate hmem
  · exact nofun
  · exact nofun
  · exact fun _ => rfl

section Steps
variable {s t : State}

theorem inv_crash (h : Inv s) (e : Crash) : Inv { s with crash := some e } :=
  ⟨h.accounts,h.fresh,h.arriving,h.done⟩

theorem closeAllSockets_ok {v : Service} (h : Inv s) (hok : s.service.closeAllSockets = .ok v) :
    Accounts v (pending { s with service := v }) ∧ Emptied s.service v ∧
      ∀ c ∈ s.service.clients, Current s.service c := by
  have hacc : Accounts s.service (s.service.clients.reverse.reverse++pending s) := by
    rw [List.reverse_reverse]
    exact h.accounts
  obtain ⟨hlive,hempty,hcurrent⟩ := closeAll_ok hacc (List.reverse_reverse _).symm hok
  have hback : v.threads.back = s.service.threads.back := by
    rw [Growing.back, Growing.back, hempty.block, hempty.length]
  have hpending : pending { s with service := v } = pending s := by
    simp only [pending, hback]
  rw [hpending]
  exact ⟨hlive,hempty,fun c hc => hcurrent c (List.mem_reverse.mpr hc)⟩

theorem inv_closed {v : Service} (h : Inv s) (hok : s.service.closeAllSockets = .ok v) :
    Inv { s with service := v } ∧ v.clients = [] := by
  obtain ⟨hlive,hempty,-⟩ := closeAllSockets_ok h hok
  refine ⟨⟨?_,?_,?_,fun _ => hempty.clients⟩,hempty.clients⟩
  · rw [live, hempty.clients]
    exact hlive
  · intro c hc
    rw [pending] at hc
    have hfresh := h.fresh
    rw [pending] at hfresh
    split at hc
    · rw [List.mem_singleton.mp hc]
      exact ⟨_,rfl,rfl⟩
    · rename_i c' hpush
      dsimp only at hpush
      rw [hpush] at hfresh
      obtain ⟨p,hp,hblock⟩ := hfresh c hc
      exact ⟨p,hp,hblock.trans hempty.block.symm⟩
    · cases hc
  · intro c hc
    rw [h.arriving c hc]
    exact congrArg _ hempty.spawned.symm

theorem inv_main (h : Inv s) (main : MainAt) (socket : Listener) (isRunning : Bool)
    (crash : Option Crash) :
    Inv { s with main := main, socket := socket, isRunning := isRunning, crash := crash } :=
  ⟨h.accounts,h.fresh,h.arriving,h.done⟩

theorem behind_cases {x : Except Stop Service} {next : State → State}
    (hm : s.behind x next = some t) :
    (∃ v, x = .ok v ∧ t = next { s with service := v }) ∨ ∃ e, t = { s with crash := some e } := by
  cases x with
  | ok v => exact .inl ⟨v,rfl,(Option.some.inj hm).symm⟩
  | error e =>
    cases e with
    | crash e => exact .inr ⟨e,(Option.some.inj hm).symm⟩
    | waits => cases hm

theorem inv_behind (h : Inv s) {x : Except Stop Service} {next : State → State}
    (hm : s.behind x next = some t)
    (hnext : ∀ v, x = .ok v → Inv (next { s with service := v })) : Inv t := by
  rcases behind_cases hm with ⟨v,hok,rfl⟩ | ⟨e,rfl⟩
  · exact hnext v hok
  · exact inv_crash h e

theorem mainMove_cases (hm : mainMove s = some t) :
    (∃ main socket isRunning crash, t =
      { s with main := main, socket := socket, isRunning := isRunning, crash := crash }) ∨
      ∃ main, s.behind s.service.closeAllSockets (fun s => { s with main := main }) = some t := by
  rw [mainMove] at hm
  split at hm
  · cases hm
  · exact .inr ⟨_,hm⟩
  · cases hm
    exact .inl ⟨_,_,_,_,rfl⟩
  · split at hm
    · cases hm
      exact .inl ⟨_,_,_,_,rfl⟩
    · cases hm
      exact .inl ⟨_,_,_,_,rfl⟩
  · exact .inr ⟨_,hm⟩
  · split at hm
    · cases hm
      exact .inl ⟨_,_,_,_,rfl⟩
    · cases hm
  · cases hm
  · cases hm

theorem inv_mainMove (h : Inv s) (hm : mainMove s = some t) : Inv t := by
  rcases mainMove_cases hm with ⟨main,socket,isRunning,crash,rfl⟩ | ⟨main,hclose⟩
  · exact inv_main h ..
  · exact inv_behind h hclose fun v hok => inv_main (inv_closed h hok).1 ..

theorem sessionMove_cases {i : ℕ} {turn : Turn} (hm : sessionMove i turn s = some t) :
    ∃ f : Session → Session, (∀ x, (f x).joins = x.joins ∧ (Joined x → Joined (f x))) ∧
      t = { s with service := s.service.onSession i f } := by
  unfold sessionMove at hm
  split at hm
  · cases turn with
    | query =>
      dsimp only at hm
      split at hm
      · cases hm
      · cases hm
        have hid : s.service.onSession i id = s.service := by simp [Service.onSession]
        exact ⟨id,fun x => ⟨rfl,id⟩,by rw [hid]⟩
    | quit =>
      dsimp only at hm
      split at hm
      · cases hm
      · cases hm
        refine ⟨_,?_,rfl⟩
        exact fun x => ⟨rfl,fun hx => ⟨hx.once,hx.shut,hx.returned⟩⟩
    | leave =>
      dsimp only at hm
      split at hm
      · cases hm
        refine ⟨_,?_,rfl⟩
        exact fun x => ⟨rfl,fun hx => ⟨hx.once,hx.shut,rfl⟩⟩
      · cases hm
    | throw =>
      cases hm
      refine ⟨_,?_,rfl⟩
      exact fun x => ⟨rfl,fun hx => ⟨hx.once,hx.shut,rfl⟩⟩
  · cases hm

theorem inv_sessionMove {i : ℕ} {turn : Turn} (h : Inv s) (hm : sessionMove i turn s = some t) :
    Inv t := by
  obtain ⟨f,hf,rfl⟩ := sessionMove_cases hm
  exact ⟨accounts_session h.accounts hf,h.fresh,h.arriving,h.done⟩

theorem inv_place (h : Inv s) {place : AcceptorAt} (hempty : pending { s with acceptor := place } = [])
    (hs : pending s = []) (harriving : ∀ c, place ≠ .spawning c)
    (hdone : place = .returning ∨ place = .returned → s.service.clients = []) :
    Inv { s with acceptor := place } := by
  constructor
  · have hacc := h.accounts
    rw [live, hs] at hacc
    rw [live, hempty]
    exact hacc
  · rw [hempty]
    exact nofun
  · exact fun c hc => absurd hc (harriving c)
  · exact hdone

theorem inv_acceptorMove {answer : Bool} (h : Inv s) (hm : acceptorMove answer s = some t) :
    Inv t := by
  obtain ⟨main,acceptor,socket,isRunning,service,crash⟩ := s
  cases acceptor with
  | creating =>
    simp only [acceptorMove] at hm
    split at hm
    · cases hm
      exact inv_main (inv_place h rfl rfl (by simp) (by simp)) ..
    · cases hm
      exact inv_place h rfl rfl (by simp) (by simp)
  | testing =>
    cases hm
    cases isRunning with
    | false => exact inv_place h rfl rfl (by simp) (by simp)
    | true => exact inv_place h rfl rfl (by simp) (by simp)
  | accepting =>
    simp only [acceptorMove] at hm
    split at hm
    · cases hm
      refine ⟨h.accounts,(fun c hc => nomatch hc),?_,by simp⟩
      intro c hc
      exact (AcceptorAt.spawning.inj hc).symm
    · cases hm
      exact inv_main (inv_place h rfl rfl (by simp) (by simp)) ..
  | spawning client =>
    cases hm
    obtain rfl : client = .ofId service.spawned := h.arriving client rfl
    have hacc : Accounts service service.clients := by
      have := h.accounts
      rwa [live, show pending _ = [] from rfl, List.append_nil] at this
    refine ⟨accounts_spawn hacc,?_,by simp,by simp⟩
    intro c hc
    rw [List.mem_singleton.mp hc]
    exact ⟨_,rfl,rfl⟩
  | saving client =>
    cases hm
    refine ⟨h.accounts,?_,by simp,by simp⟩
    intro c hc
    rw [List.mem_singleton.mp hc]
    exact ⟨_,rfl,rfl⟩
  | pushing client =>
    cases hm
    refine ⟨?_,(fun c hc => nomatch hc),by simp,by simp⟩
    have hacc : Accounts service (service.clients++[client]) := h.accounts
    rw [live, show pending _ = [] from rfl, List.append_nil]
    exact accounts_clients _ hacc
  | reaping =>
    have halive : ∀ c ∈ service.clients, c.isAlive = true := fun c hc =>
      h.accounts.alive c (List.mem_append_left _ hc)
    simp only [acceptorMove, closeDeadSockets_alive halive, State.behind] at hm
    cases hm
    exact inv_place h rfl rfl (by simp) (by simp)
  | closing =>
    rw [acceptorMove] at hm
    apply inv_behind h hm
    intro v hok
    obtain ⟨hclosed,hclients⟩ := inv_closed h hok
    exact inv_place hclosed rfl rfl (by simp) fun _ => hclients
  | returning =>
    simp only [acceptorMove] at hm
    split at hm
    · cases hm
      exact inv_place h rfl rfl (by simp) fun _ => h.done (.inl rfl)
    · cases hm
      exact inv_crash h _
  | returned => cases hm

theorem step_inv {m : Move} (h : Inv s) (hm : step m s = some t) : Inv t := by
  unfold step at hm
  split at hm
  · cases m with
    | quitTyped =>
      dsimp only at hm
      split at hm
      · cases hm
        exact inv_main h ..
      · cases hm
    | main => exact inv_mainMove h hm
    | acceptor answer => exact inv_acceptorMove h hm
    | session i turn => exact inv_sessionMove h hm
  · cases hm

inductive Changes (s t : State) : Prop where
  | same (clients : t.service.clients = s.service.clients)
      (threads : t.service.threads = s.service.threads)
      (spawned : t.service.spawned = s.service.spawned)
  | emptied (h : Emptied s.service t.service)
      (current : ∀ c ∈ s.service.clients, Current s.service c)
  | started (c : Client) (before : s.acceptor = .spawning c) (after : t.acceptor = .saving c)
      (h : t.service = s.service.spawn c)
  | listed (c : Client) (before : s.acceptor = .pushing c)
      (h : t.service = s.service.pushBack c)

theorem changes_behind (h : Inv s) {next : State → State}
    (hm : s.behind s.service.closeAllSockets next = some t)
    (hnext : ∀ s, (next s).service = s.service) : Changes s t := by
  rcases behind_cases hm with ⟨v,hok,rfl⟩ | ⟨e,rfl⟩
  · obtain ⟨-,hempty,hcurrent⟩ := closeAllSockets_ok h hok
    have hservice : (next { s with service := v }).service = v := hnext _
    apply Changes.emptied
    · rwa [hservice]
    · exact hcurrent
  · exact .same rfl rfl rfl

theorem changes_mainMove (h : Inv s) (hm : mainMove s = some t) : Changes s t := by
  rcases mainMove_cases hm with ⟨main,socket,isRunning,crash,rfl⟩ | ⟨main,hclose⟩
  · exact .same rfl rfl rfl
  · exact changes_behind h hclose fun _ => rfl

theorem changes_sessionMove {i : ℕ} {turn : Turn} (hm : sessionMove i turn s = some t) :
    Changes s t := by
  obtain ⟨f,-,rfl⟩ := sessionMove_cases hm
  exact .same rfl rfl rfl

theorem reap_nothing (h : Inv s) : s.service.closeDeadSockets = .ok s.service :=
  closeDeadSockets_alive fun c hc => h.accounts.alive c (List.mem_append_left _ hc)

theorem changes_acceptorMove {answer : Bool} (h : Inv s) (hm : acceptorMove answer s = some t) :
    Changes s t := by
  unfold acceptorMove at hm
  split at hm
  · split at hm
    · cases hm
      exact .same rfl rfl rfl
    · cases hm
      exact .same rfl rfl rfl
  · cases hm
    exact .same rfl rfl rfl
  · split at hm
    · cases hm
      exact .same rfl rfl rfl
    · cases hm
      exact .same rfl rfl rfl
  · rename_i client hplace
    cases hm
    exact .started client hplace rfl rfl
  · cases hm
    exact .same rfl rfl rfl
  · rename_i client hplace
    cases hm
    exact .listed client hplace rfl
  · rw [reap_nothing h] at hm
    cases hm
    exact .same rfl rfl rfl
  · exact changes_behind h hm fun _ => rfl
  · split at hm
    · cases hm
      exact .same rfl rfl rfl
    · cases hm
      exact .same rfl rfl rfl
  · cases hm

theorem step_changes {m : Move} (h : Inv s) (hm : step m s = some t) : Changes s t := by
  unfold step at hm
  split at hm
  · cases m with
    | quitTyped =>
      dsimp only at hm
      split at hm
      · cases hm
        exact .same rfl rfl rfl
      · cases hm
    | main => exact changes_mainMove h hm
    | acceptor answer => exact changes_acceptorMove h hm
    | session i turn => exact changes_sessionMove hm
  · cases hm

theorem step_place {m : Move} (hm : step m s = some t) :
    t.acceptor = s.acceptor ∨ ∃ answer, m = .acceptor answer ∧ acceptorMove answer s = some t := by
  unfold step at hm
  split at hm
  · cases m with
    | quitTyped =>
      dsimp only at hm
      split at hm
      · cases hm
        exact .inl rfl
      · cases hm
    | main =>
      rcases mainMove_cases hm with ⟨main,socket,isRunning,crash,rfl⟩ | ⟨main,hclose⟩
      · exact .inl rfl
      · rcases behind_cases hclose with ⟨v,-,rfl⟩ | ⟨e,rfl⟩
        · exact .inl rfl
        · exact .inl rfl
    | acceptor answer => exact .inr ⟨answer,rfl,hm⟩
    | session i turn =>
      obtain ⟨f,-,rfl⟩ := sessionMove_cases hm
      exact .inl rfl
  · cases hm

theorem step_spawning {m : Move} {c : Client} (hm : step m s = some t)
    (hplace : s.acceptor = .spawning c) (hmoved : t.acceptor ≠ s.acceptor) :
    t = { s with service := s.service.spawn c, acceptor := .saving c } := by
  obtain ⟨answer,-,hmove⟩ := (step_place hm).resolve_left hmoved
  rw [acceptorMove, hplace] at hmove
  exact (Option.some.inj hmove).symm

theorem run_inv (r : Run step initial) (k : ℕ) : Inv (r.state k) :=
  r.always initial_inv (fun _ _ _ h hm => step_inv h hm) k

end Steps

end Workshop.FtpAcceptor
