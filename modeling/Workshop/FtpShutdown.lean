import Workshop.FtpHandles

/-!
# Shutting the file server down

The main thread closes the clients, clears the running flag and shuts the
listening socket down. The acceptor then finds its `accept` failing or the flag
cleared and closes the clients it still has. This goes well in the runs in
which the socket is listening when it is shut down and no address of a thread
was lost before.
-/

set_option autoImplicit false

namespace Workshop.FtpShutdown
open Workshop.GrowingVector Workshop.FairRun Workshop.FtpAcceptor Workshop.FtpHandles

def MainReady (s : State) : Prop := (step .main s).isSome

def AcceptorReady (s : State) : Prop :=
  (step (.acceptor false) s).isSome ∧ ¬ (s.acceptor = .accepting ∧ s.socket = .listening)

structure Quits (r : Run step initial) : Prop where
  typed : ∃ k, (r.state k).main ≠ .typing
  main : r.Fair (· = .main) MainReady
  acceptor : r.Fair (fun m => ∃ answer, m = .acceptor answer) AcceptorReady

/-- `stop` does not throw, the acceptor returns, and before it destroys its
threads all clients are gone and every session has been joined once. -/
structure ShutsDown (r : Run step initial) : Prop where
  stops : ∀ k, (r.state k).main ≠ .threw
  returns : ∃ k, (r.state k).acceptor = .returned
  joined : ∀ k, (r.state k).acceptor = .returning ∨ (r.state k).acceptor = .returned →
    (r.state k).service.clients = [] ∧
      ∀ i < (r.state k).service.spawned, ((r.state k).service.session i).joins = 1

/-- A listening socket is shut down, and no address of a listed client is lost. -/
def Orderly (s t : State) : Prop :=
  (s.main = .shutting → t.main ≠ s.main → s.socket = .listening) ∧ StartsSafely s t

structure Sound (s : State) : Prop where
  running : s.crash = none
  stopping : s.main ≠ .threw
  current : ∀ c ∈ s.service.clients, Current s.service c

section Steps
variable {s t : State}

theorem closeAllSockets_current (h : Inv s) (hcurrent : ∀ c ∈ s.service.clients, Current s.service c) :
    ∃ v, s.service.closeAllSockets = .ok v := by
  have hacc : Accounts s.service (s.service.clients.reverse.reverse++pending s) := by
    rw [List.reverse_reverse]
    exact h.accounts
  exact closeAll_current hacc fun c hc => hcurrent c (List.mem_reverse.mp hc)

theorem threads_joined (h : Inv s) (hplace : s.acceptor = .returning) :
    ∀ th ∈ s.service.threads.elems, th = none := by
  have hlive : live s = [] := by
    rw [live, h.done (.inl hplace), pending, hplace]
    rfl
  intro th hth
  cases th with
  | none => rfl
  | some i =>
    obtain ⟨k,hk⟩ := List.mem_iff_getElem?.mp hth
    obtain ⟨c,hc,-⟩ := h.accounts.slots k i hk
    rw [hlive] at hc
    cases hc

inductive MainGoes (s : State) : State → Prop where
  | closes (v : Service) (h : s.main = .closing) :
      MainGoes s { s with service := v, main := .stopping }
  | clears (h : s.main = .stopping) : MainGoes s { s with isRunning := false, main := .shutting }
  | shuts (h : s.main = .shutting) (hs : s.socket = .listening) :
      MainGoes s { s with socket := .closed, main := .closingAgain }
  | closesAgain (v : Service) (h : s.main = .closingAgain) :
      MainGoes s { s with service := v, main := .joining }
  | joins (h : s.main = .joining) : MainGoes s { s with main := .ended }

inductive AcceptorGoes (s : State) : State → Prop where
  | creates (h : s.acceptor = .creating) :
      AcceptorGoes s { s with socket := .listening, acceptor := .testing }
  | throws (h : s.acceptor = .creating) : AcceptorGoes s { s with acceptor := .closing }
  | tests (h : s.acceptor = .testing) :
      AcceptorGoes s { s with acceptor := if s.isRunning then .accepting else .closing }
  | accepts (c : Client) (h : s.acceptor = .accepting) (hs : s.socket = .listening) :
      AcceptorGoes s { s with acceptor := .spawning c }
  | refuses (h : s.acceptor = .accepting) :
      AcceptorGoes s { s with socket := .closed, acceptor := .closing }
  | starts (c : Client) (v : Service) (h : s.acceptor = .spawning c) :
      AcceptorGoes s { s with service := v, acceptor := .saving c }
  | saves (c c' : Client) (h : s.acceptor = .saving c) :
      AcceptorGoes s { s with acceptor := .pushing c' }
  | lists (c : Client) (v : Service) (h : s.acceptor = .pushing c) :
      AcceptorGoes s { s with service := v, acceptor := .reaping }
  | reaps (h : s.acceptor = .reaping) : AcceptorGoes s { s with acceptor := .testing }
  | closes (v : Service) (h : s.acceptor = .closing) :
      AcceptorGoes s { s with service := v, acceptor := .returning }
  | destroys (h : s.acceptor = .returning) : AcceptorGoes s { s with acceptor := .returned }

theorem main_goes (h : Inv s) (hs : Sound s) (ho : Orderly s t) (hm : mainMove s = some t) :
    MainGoes s t := by
  obtain ⟨v,hv⟩ := closeAllSockets_current h hs.current
  rw [mainMove, hv] at hm
  split at hm
  · cases hm
  · cases hm
    exact .closes v ‹_›
  · cases hm
    exact .clears ‹_›
  · rename_i hplace
    split at hm
    · cases hm
      exact .shuts hplace ‹_›
    · rename_i hsocket
      cases hm
      exact absurd (ho.1 hplace (by rw [hplace]; exact fun h => MainAt.noConfusion h)) hsocket
  · cases hm
    exact .closesAgain v ‹_›
  · split at hm
    · cases hm
      exact .joins ‹_›
    · cases hm
  · cases hm
  · cases hm

theorem acceptor_goes (h : Inv s) (hs : Sound s) {answer : Bool}
    (hm : acceptorMove answer s = some t) : AcceptorGoes s t := by
  obtain ⟨v,hv⟩ := closeAllSockets_current h hs.current
  rw [acceptorMove.eq_def, hv, reap_nothing h] at hm
  split at hm
  · split at hm
    · cases hm
      exact .creates ‹_›
    · cases hm
      exact .throws ‹_›
  · cases hm
    exact .tests ‹_›
  · rename_i hplace
    split at hm
    · rename_i hanswer
      cases hm
      exact .accepts _ hplace hanswer.2
    · cases hm
      exact .refuses hplace
  · cases hm
    exact .starts _ _ ‹_›
  · cases hm
    exact .saves _ _ ‹_›
  · cases hm
    exact .lists _ _ ‹_›
  · cases hm
    exact .reaps ‹_›
  · cases hm
    exact .closes v ‹_›
  · rename_i hplace
    rw [if_pos (threads_joined h hplace)] at hm
    cases hm
    exact .destroys hplace
  · cases hm

/-- What a move does when nothing goes wrong. -/
theorem step_goes {m : Move} (h : Inv s) (hs : Sound s) (ho : Orderly s t)
    (hm : step m s = some t) :
    (m = .main ∧ MainGoes s t) ∨ ((∃ answer, m = .acceptor answer) ∧ AcceptorGoes s t) ∨
      (m ≠ .main ∧ s.main = .typing ∧ t = { s with main := .closing }) ∨
      (m ≠ .main ∧ ∃ v, t = { s with service := v }) := by
  unfold step at hm
  rw [if_pos hs.running] at hm
  cases m with
  | quitTyped =>
    dsimp only at hm
    split at hm
    · cases hm
      exact .inr (.inr (.inl ⟨nofun,‹_›,rfl⟩))
    · cases hm
  | main => exact .inl ⟨rfl,main_goes h hs ho hm⟩
  | acceptor answer => exact .inr (.inl ⟨⟨answer,rfl⟩,acceptor_goes h hs hm⟩)
  | session i turn =>
    obtain ⟨f,-,rfl⟩ := sessionMove_cases hm
    exact .inr (.inr (.inr ⟨nofun,_,rfl⟩))

theorem step_sound {m : Move} (h : Inv s) (hs : Sound s) (ho : Orderly s t)
    (hm : step m s = some t) : Sound t := by
  have hcurrent := step_current h hm ho.2 hs.current
  have hrunning := hs.running
  have hstopping := hs.stopping
  rcases step_goes h hs ho hm with ⟨-,hgoes⟩ | ⟨-,hgoes⟩ | ⟨-,-,rfl⟩ | ⟨-,v,rfl⟩
  · cases hgoes <;> exact ⟨hrunning,nofun,hcurrent⟩
  · cases hgoes <;> exact ⟨hrunning,hstopping,hcurrent⟩
  · exact ⟨hrunning,nofun,hcurrent⟩
  · exact ⟨hrunning,hstopping,hcurrent⟩

def Past (s : State) : Prop := s.main = .closingAgain ∨ s.main = .joining ∨ s.main = .ended

structure Settled (s : State) : Prop where
  cleared : s.main = .shutting ∨ Past s → s.isRunning = false
  closed : Past s → s.socket = .closed
  unset : s.acceptor = .creating → s.socket = .unset

theorem initial_settled : Settled initial := by
  constructor
  · rintro (h | h | h | h) <;> cases h
  · rintro (h | h | h) <;> cases h
  · exact fun _ => rfl

theorem settled_main (hs : Settled s) (hgoes : MainGoes s t) : Settled t := by
  obtain ⟨hcleared,hclosed,hunset⟩ := hs
  cases hgoes with
  | closes v h => exact ⟨by simp [Past],by simp [Past],hunset⟩
  | clears h => exact ⟨fun _ => rfl,by simp [Past],hunset⟩
  | shuts h hlistening =>
    refine ⟨fun _ => hcleared (.inl h),fun _ => rfl,?_⟩
    intro hcreating
    rw [hunset hcreating] at hlistening
    cases hlistening
  | closesAgain v h =>
    exact ⟨fun _ => hcleared (.inr (.inl h)),fun _ => hclosed (.inl h),hunset⟩
  | joins h =>
    exact ⟨fun _ => hcleared (.inr (.inr (.inl h))),fun _ => hclosed (.inr (.inl h)),hunset⟩

theorem settled_acceptor (hs : Settled s) (hgoes : AcceptorGoes s t) : Settled t := by
  obtain ⟨hcleared,hclosed,hunset⟩ := hs
  cases hgoes with
  | creates h =>
    refine ⟨hcleared,?_,nofun⟩
    intro hpast
    have hsocket := hclosed hpast
    rw [hunset h] at hsocket
    cases hsocket
  | tests h =>
    refine ⟨hcleared,hclosed,?_⟩
    cases s.isRunning with
    | false => exact nofun
    | true => exact nofun
  | refuses h => exact ⟨hcleared,fun _ => rfl,nofun⟩
  | _ => exact ⟨hcleared,hclosed,nofun⟩

theorem step_settled {m : Move} (h : Inv s) (hsound : Sound s) (ho : Orderly s t)
    (hm : step m s = some t) (hs : Settled s) : Settled t := by
  rcases step_goes h hsound ho hm with ⟨-,hgoes⟩ | ⟨-,hgoes⟩ | ⟨-,-,rfl⟩ | ⟨-,v,rfl⟩
  · exact settled_main hs hgoes
  · exact settled_acceptor hs hgoes
  · exact ⟨by simp [Past],by simp [Past],hs.unset⟩
  · exact ⟨hs.cleared,hs.closed,hs.unset⟩

theorem step_past {m : Move} (h : Inv s) (hsound : Sound s) (ho : Orderly s t)
    (hm : step m s = some t) (hs : Past s) : Past t := by
  rcases step_goes h hsound ho hm with ⟨-,hgoes⟩ | ⟨-,hgoes⟩ | ⟨-,htyping,-⟩ | ⟨-,v,rfl⟩
  · cases hgoes with
    | closes v h => simp [Past, h] at hs
    | clears h => simp [Past, h] at hs
    | shuts h _ => simp [Past, h] at hs
    | closesAgain v h => exact .inr (.inl rfl)
    | joins h => exact .inr (.inr rfl)
  · cases hgoes <;> exact hs
  · simp [Past, htyping] at hs
  · exact hs

def mainLeft (s : State) : ℕ :=
  match s.main with
  | .closing => 3
  | .stopping => 2
  | .shutting => 1
  | _ => 0

/-- The moves of the acceptor that are left at most when `stop` has returned. -/
def acceptorLeft (s : State) : ℕ :=
  match s.acceptor with
  | .creating => 8
  | .spawning _ => 7
  | .saving _ => 6
  | .pushing _ => 5
  | .reaping => 4
  | .testing => 3
  | .accepting => 3
  | .closing => 2
  | .returning => 1
  | .returned => 0

theorem mainLeft_lower (hgoes : MainGoes s t) (hleft : 0 < mainLeft s) :
    mainLeft t < mainLeft s := by
  cases hgoes with
  | closes v h => simp [mainLeft, h]
  | clears h => simp [mainLeft, h]
  | shuts h _ => simp [mainLeft, h]
  | closesAgain v h => simp [mainLeft, h] at hleft
  | joins h => simp [mainLeft, h] at hleft

theorem acceptorLeft_lower (hgoes : AcceptorGoes s t) (hpast : Past s) (hs : Settled s) :
    acceptorLeft t < acceptorLeft s := by
  have hclosed := hs.closed hpast
  have hcleared := hs.cleared (.inr hpast)
  cases hgoes with
  | tests h => simp [acceptorLeft, h, hcleared]
  | accepts c h hlistening =>
    rw [hclosed] at hlistening
    cases hlistening
  | creates h => simp [acceptorLeft, h]
  | throws h => simp [acceptorLeft, h]
  | refuses h => simp [acceptorLeft, h]
  | starts c v h => simp [acceptorLeft, h]
  | saves c c' h => simp [acceptorLeft, h]
  | lists c v h => simp [acceptorLeft, h]
  | reaps h => simp [acceptorLeft, h]
  | closes v h => simp [acceptorLeft, h]
  | destroys h => simp [acceptorLeft, h]

theorem main_stays (hgoes : MainGoes s t) :
    t.main ≠ .typing ∧ mainLeft t ≤ mainLeft s ∧ acceptorLeft t = acceptorLeft s := by
  cases hgoes with
  | closes v h => simp [mainLeft, acceptorLeft, h]
  | clears h => simp [mainLeft, acceptorLeft, h]
  | shuts h _ => simp [mainLeft, acceptorLeft, h]
  | closesAgain v h => simp [mainLeft, acceptorLeft]
  | joins h => simp [mainLeft, acceptorLeft]

theorem acceptor_stays (hgoes : AcceptorGoes s t) : t.main = s.main := by
  cases hgoes <;> rfl

theorem step_typed {m : Move} (h : Inv s) (hsound : Sound s) (ho : Orderly s t)
    (hm : step m s = some t) (htyped : s.main ≠ .typing) :
    t.main ≠ .typing ∧ mainLeft t ≤ mainLeft s := by
  rcases step_goes h hsound ho hm with ⟨-,hgoes⟩ | ⟨-,hgoes⟩ | ⟨-,htyping,-⟩ | ⟨-,v,rfl⟩
  · exact ⟨(main_stays hgoes).1,(main_stays hgoes).2.1⟩
  · have hmain := acceptor_stays hgoes
    rw [mainLeft, mainLeft, hmain]
    exact ⟨htyped,le_rfl⟩
  · exact absurd htyping htyped
  · exact ⟨htyped,le_rfl⟩

theorem step_left {m : Move} (h : Inv s) (hsound : Sound s) (ho : Orderly s t)
    (hm : step m s = some t) (hpast : Past s) (hs : Settled s) :
    acceptorLeft t ≤ acceptorLeft s := by
  rcases step_goes h hsound ho hm with ⟨-,hgoes⟩ | ⟨-,hgoes⟩ | ⟨-,htyping,-⟩ | ⟨-,v,rfl⟩
  · exact (main_stays hgoes).2.2.le
  · exact (acceptorLeft_lower hgoes hpast hs).le
  · simp [Past, htyping] at hpast
  · exact le_rfl

theorem main_ready (h : Inv s) (hsound : Sound s) (hleft : 0 < mainLeft s) : MainReady s := by
  obtain ⟨v,hv⟩ := closeAllSockets_current h hsound.current
  rw [MainReady, step, if_pos hsound.running]
  rw [mainLeft] at hleft
  split at hleft
  all_goals rename_i hplace
  · simp [mainMove, hplace, hv, State.behind]
  · simp [mainMove, hplace]
  · simp only [mainMove, hplace]
    split <;> rfl
  · omega

theorem acceptor_ready (h : Inv s) (hsound : Sound s) (hpast : Past s) (hs : Settled s)
    (hleft : 0 < acceptorLeft s) : AcceptorReady s := by
  obtain ⟨v,hv⟩ := closeAllSockets_current h hsound.current
  constructor
  · rw [step, if_pos hsound.running]
    rw [acceptorLeft] at hleft
    split at hleft
    all_goals rename_i hplace
    all_goals simp only [acceptorMove, hplace, hv, reap_nothing h, State.behind]
    · rfl
    · rfl
    · rfl
    · rfl
    · rfl
    · rfl
    · rfl
    · rfl
    · split <;> rfl
    · omega
  · rintro ⟨-,hlistening⟩
    rw [hs.closed hpast] at hlistening
    cases hlistening

end Steps

section Runs
variable {r : Run step initial} (ho : ∀ k, Orderly (r.state k) (r.state (k+1)))
include ho

theorem run_sound (k : ℕ) : Sound (r.state k) := by
  induction k with
  | zero =>
    rw [r.init]
    exact ⟨rfl,nofun,nofun⟩
  | succ k ih =>
    rcases r.next k with hpause | ⟨m,hm⟩
    · rwa [hpause]
    · exact step_sound (run_inv r k) ih (ho k) hm

theorem run_settled (k : ℕ) : Settled (r.state k) := by
  induction k with
  | zero =>
    rw [r.init]
    exact initial_settled
  | succ k ih =>
    rcases r.next k with hpause | ⟨m,hm⟩
    · rwa [hpause]
    · exact step_settled (run_inv r k) (run_sound ho k) (ho k) hm ih

theorem stop_returns (hq : Quits r) : ∃ k, Past (r.state k) := by
  obtain ⟨k,hk⟩ := hq.typed
  have htyped : ∀ n ≥ k, (r.state n).main ≠ .typing := fun n hn =>
    r.stays (fun s => s.main ≠ .typing) hk (fun n m _ htyped hm =>
      (step_typed (run_inv r n) (run_sound ho n) (ho n) hm htyped).1) hn
  obtain ⟨n,hn,hzero⟩ := hq.main.reaches_zero mainLeft (k := k)
    (fun n _ hleft => main_ready (run_inv r n) (run_sound ho n) hleft)
    (fun n hn => by
      rcases r.next n with hpause | ⟨m,hm⟩
      · rw [hpause]
      · exact (step_typed (run_inv r n) (run_sound ho n) (ho n) hm (htyped n hn)).2)
    (fun n hn hleft hmoves => by
      obtain ⟨m,rfl,hm⟩ := hmoves
      rw [step, if_pos (run_sound ho n).running] at hm
      exact mainLeft_lower (main_goes (run_inv r n) (run_sound ho n) (ho n) hm) hleft)
  refine ⟨n,?_⟩
  have hmain := htyped n hn
  have hthrew := (run_sound ho n).stopping
  rw [mainLeft] at hzero
  rw [Past]
  cases hplace : (r.state n).main with
  | typing => exact absurd hplace hmain
  | threw => exact absurd hplace hthrew
  | closing => simp [hplace] at hzero
  | stopping => simp [hplace] at hzero
  | shutting => simp [hplace] at hzero
  | _ => simp

theorem acceptor_returns (hq : Quits r) : ∃ k, (r.state k).acceptor = .returned := by
  obtain ⟨k,hk⟩ := stop_returns ho hq
  have hpast : ∀ n ≥ k, Past (r.state n) := fun n hn =>
    r.stays Past hk (fun n m _ hpast hm =>
      step_past (run_inv r n) (run_sound ho n) (ho n) hm hpast) hn
  obtain ⟨n,-,hzero⟩ := hq.acceptor.reaches_zero acceptorLeft (k := k)
    (fun n hn hleft =>
      acceptor_ready (run_inv r n) (run_sound ho n) (hpast n hn) (run_settled ho n) hleft)
    (fun n hn => by
      rcases r.next n with hpause | ⟨m,hm⟩
      · rw [hpause]
      · exact step_left (run_inv r n) (run_sound ho n) (ho n) hm (hpast n hn) (run_settled ho n))
    (fun n hn hleft hmoves => by
      obtain ⟨m,⟨answer,rfl⟩,hm⟩ := hmoves
      rw [step, if_pos (run_sound ho n).running] at hm
      exact acceptorLeft_lower (acceptor_goes (run_inv r n) (run_sound ho n) hm) (hpast n hn)
        (run_settled ho n))
  refine ⟨n,?_⟩
  rw [acceptorLeft] at hzero
  split at hzero
  all_goals first
    | assumption
    | cases hzero

theorem orderly_shutsDown (hq : Quits r) : ShutsDown r := by
  refine ⟨fun k => (run_sound ho k).stopping,acceptor_returns ho hq,?_⟩
  intro k hplace
  have h := run_inv r k
  have hclients := h.done hplace
  refine ⟨hclients,?_⟩
  have hlive : live (r.state k) = [] := by
    rw [live, hclients, pending]
    rcases hplace with hplace | hplace <;> rw [hplace] <;> rfl
  intro i hi
  refine (h.accounts.joined i hi ?_).once
  rw [hlive]
  exact List.not_mem_nil

end Runs

section Lost
variable {s t : State}

structure Lost (s : State) : Prop where
  client : ∃ c ∈ s.service.clients, ∃ p, c.thread = some p ∧ p.block < s.service.threads.block
  running : s.acceptor ≠ .returning ∧ s.acceptor ≠ .returned

theorem lost_not_closed (h : Inv s) (hl : Lost s) (v : Service) :
    s.service.closeAllSockets ≠ .ok v := by
  intro hok
  obtain ⟨c,hc,p,hp,hlt⟩ := hl.client
  obtain ⟨p',hp',hblock⟩ := (closeAllSockets_ok h hok).2.2 c hc
  rw [hp] at hp'
  cases hp'
  omega

theorem lost_place (h : Inv s) (hl : Lost s) {answer : Bool}
    (hm : acceptorMove answer s = some t) : t.acceptor ≠ .returning ∧ t.acceptor ≠ .returned := by
  have hrunning := hl.running
  rw [acceptorMove.eq_def, reap_nothing h] at hm
  split at hm
  · split at hm <;> cases hm <;> exact ⟨nofun,nofun⟩
  · cases hm
    cases s.isRunning <;> exact ⟨nofun,nofun⟩
  · split at hm <;> cases hm <;> exact ⟨nofun,nofun⟩
  · cases hm
    exact ⟨nofun,nofun⟩
  · cases hm
    exact ⟨nofun,nofun⟩
  · cases hm
    exact ⟨nofun,nofun⟩
  · cases hm
    exact ⟨nofun,nofun⟩
  · cases hok : s.service.closeAllSockets with
    | ok v => exact absurd hok (lost_not_closed h hl v)
    | error e =>
      rw [hok] at hm
      rcases behind_cases hm with ⟨v,hv,-⟩ | ⟨e,rfl⟩
      · cases hv
      · exact hrunning
  · exact absurd ‹_› hrunning.1
  · cases hm

theorem step_lost {m : Move} (h : Inv s) (hm : step m s = some t) (hl : Lost s) : Lost t := by
  constructor
  · obtain ⟨c,hc,p,hp,hlt⟩ := hl.client
    cases step_changes h hm with
    | same hclients hthreads _ =>
      rw [hclients, hthreads]
      exact ⟨c,hc,p,hp,hlt⟩
    | emptied _ hcurrent =>
      obtain ⟨p',hp',hblock⟩ := hcurrent c hc
      rw [hp] at hp'
      cases hp'
      omega
    | started client _ _ hservice =>
      rw [hservice]
      exact ⟨c,hc,p,hp,hlt.trans_le (Growing.block_le_emplaceBack _ _)⟩
    | listed client _ hservice =>
      rw [hservice]
      exact ⟨c,List.mem_append_left _ hc,p,hp,hlt⟩
  · rcases step_place hm with hplace | ⟨answer,-,hmove⟩
    · rw [hplace]
      exact hl.running
    · exact lost_place h hl hmove

theorem growth_lost {m : Move} {c : Client} (h : Inv s) (hm : step m s = some t)
    (hplace : s.acceptor = .spawning c) (hmoved : t.acceptor ≠ s.acceptor)
    (hfull : s.service.threads.Full) (hlisted : s.service.clients ≠ []) : Lost t := by
  obtain ⟨c',hc'⟩ := List.exists_mem_of_ne_nil _ hlisted
  obtain ⟨p,hp,hle,-⟩ := h.accounts.handle c' (List.mem_append_left _ hc')
  rw [step_spawning hm hplace hmoved]
  refine ⟨⟨c',hc',p,hp,?_⟩,nofun,nofun⟩
  rw [Service.spawn, Growing.emplaceBack_block, if_pos hfull]
  omega

theorem step_returned {m : Move} (hm : step m s = some t) (hs : s.acceptor = .returned) :
    t.acceptor = .returned := by
  rcases step_place hm with hplace | ⟨answer,-,hmove⟩
  · rw [hplace, hs]
  · rw [acceptorMove, hs] at hmove
    cases hmove

theorem behind_main {x : Except Stop Service} {next : State → State}
    (hm : s.behind x next = some t) (hnext : ∀ s, (next s).main = s.main) : t.main = s.main := by
  rcases behind_cases hm with ⟨v,-,rfl⟩ | ⟨e,rfl⟩
  · exact hnext _
  · rfl

theorem acceptorMove_main {answer : Bool} (hm : acceptorMove answer s = some t) :
    t.main = s.main := by
  unfold acceptorMove at hm
  split at hm
  · split at hm <;> cases hm <;> rfl
  · cases hm
    rfl
  · split at hm <;> cases hm <;> rfl
  · cases hm
    rfl
  · cases hm
    rfl
  · cases hm
    rfl
  · exact behind_main hm fun _ => rfl
  · exact behind_main hm fun _ => rfl
  · split at hm <;> cases hm <;> rfl
  · cases hm

theorem step_shutting {m : Move} (hm : step m s = some t) (hs : s.main = .shutting)
    (hmoved : t.main ≠ s.main) : mainMove s = some t := by
  unfold step at hm
  split at hm
  · cases m with
    | quitTyped =>
      rw [hs] at hm
      cases hm
    | main => exact hm
    | acceptor answer => exact absurd (acceptorMove_main hm) hmoved
    | session i turn =>
      obtain ⟨f,-,rfl⟩ := sessionMove_cases hm
      exact absurd rfl hmoved
  · cases hm

end Lost

theorem shutsDown_orderly {r : Run step initial} (hd : ShutsDown r) (k : ℕ) :
    Orderly (r.state k) (r.state (k+1)) := by
  constructor
  · intro hplace hmoved
    by_contra hsocket
    rcases r.next k with hpause | ⟨m,hm⟩
    · exact hmoved (by rw [hpause])
    · have hmain := step_shutting hm hplace hmoved
      rw [mainMove, hplace] at hmain
      simp only [if_neg hsocket] at hmain
      apply hd.stops (k+1)
      rw [← Option.some.inj hmain]
  · intro c hplace hmoved hfull
    by_contra hlisted
    rcases r.next k with hpause | ⟨m,hm⟩
    · exact hmoved (by rw [hpause])
    · have hlost := growth_lost (run_inv r k) hm hplace hmoved hfull hlisted
      obtain ⟨j,hj⟩ := hd.returns
      rcases Nat.lt_or_ge k j with hlt | hle
      · have hlater := r.stays Lost hlost (fun n m _ hl hm => step_lost (run_inv r n) hm hl)
          (Nat.succ_le_of_lt hlt)
        exact hlater.running.2 hj
      · have hreturned := r.stays (fun s => s.acceptor = .returned) hj
          (fun n m _ hs hm => step_returned hm hs) hle
        rw [hplace] at hreturned
        cases hreturned

/-- A fair run in which the quit command is typed shuts the server down exactly
when it is orderly. -/
theorem shuts_down_iff (r : Run step initial) (hq : Quits r) :
    ShutsDown r ↔ ∀ k, Orderly (r.state k) (r.state (k+1)) := by
  constructor
  · exact shutsDown_orderly
  · intro ho
    exact orderly_shutsDown ho hq

theorem scripted_quits (moves : List Move)
    (htyped : (play step moves initial moves.length).main ≠ .typing)
    (hmain : ¬ MainReady (play step moves initial moves.length))
    (hacceptor : ¬ AcceptorReady (play step moves initial moves.length)) :
    Quits (scripted step moves initial) := by
  have hlast : ∀ k, (scripted step moves initial).state (max k moves.length) =
      play step moves initial moves.length := fun k =>
    play_ends step moves initial (le_max_right _ _)
  constructor
  · exact ⟨_,by rw [hlast 0]; exact htyped⟩
  · intro k hready
    exact absurd (hlast k ▸ hready _ (le_max_left _ _)) hmain
  · intro k hready
    exact absurd (hlast k ▸ hready _ (le_max_left _ _)) hacceptor

def quitMoves : List Move :=
  List.replicate 8 (Move.acceptor true)++[Move.quitTyped,.main,.main,.main]++
    List.replicate 3 (Move.acceptor true)++[Move.main,.main]

theorem quit_ends :
    (play step quitMoves initial 17).main = .ended ∧
      (play step quitMoves initial 17).acceptor = .returned := by
  decide +kernel

theorem quit_orderly : ∀ k < 17,
    ((play step quitMoves initial k).main = .shutting →
      (play step quitMoves initial k).socket = .listening) ∧
    ((play step quitMoves initial k).service.threads.Full →
      (play step quitMoves initial k).service.clients = []) := by
  decide +kernel

theorem shuts_down_iff_quit : ShutsDown (scripted step quitMoves initial) := by
  have hmain : ¬ MainReady (play step quitMoves initial 17) := by
    rw [MainReady, step, mainMove, quit_ends.1]
    simp
  have hacceptor : ¬ AcceptorReady (play step quitMoves initial 17) := by
    rw [AcceptorReady, step, acceptorMove, quit_ends.2]
    simp
  have htyped : (play step quitMoves initial 17).main ≠ .typing := by
    rw [quit_ends.1]
    exact fun h => MainAt.noConfusion h
  have hquits := scripted_quits quitMoves htyped hmain hacceptor
  refine (shuts_down_iff (scripted step quitMoves initial) hquits).mpr ?_
  intro k
  by_cases hk : k < 17
  · have horderly := quit_orderly k hk
    exact ⟨fun hplace _ => horderly.1 hplace,fun _ _ _ hfull => horderly.2 hfull⟩
  · have hpause : (scripted step quitMoves initial).state (k+1) =
        (scripted step quitMoves initial).state k :=
      (play_ends step quitMoves initial (Nat.le_succ_of_le (Nat.le_of_not_lt hk))).trans
        (play_ends step quitMoves initial (Nat.le_of_not_lt hk)).symm
    rw [hpause]
    exact ⟨fun _ hmoved => absurd rfl hmoved,fun _ _ hmoved => absurd rfl hmoved⟩

def earlyMoves : List Move := [.quitTyped,.main,.main,.main]

/-- The server does not shut down when it is stopped before it listens. -/
theorem early_stop_throws :
    Quits (scripted step earlyMoves initial) ∧ ¬ ShutsDown (scripted step earlyMoves initial) := by
  constructor
  · apply scripted_quits earlyMoves
    · decide +kernel
    · rw [MainReady, step, if_neg]
      · simp
      · decide +kernel
    · rw [AcceptorReady, step, if_neg]
      · simp
      · decide +kernel
  · intro hshut
    exact hshut.stops 4 rfl

end Workshop.FtpShutdown
