import Workshop.FtpAcceptor

/-!
# Sessions that have returned

`close_dead_sockets` looks at the clients in the server's list. A session works
on a client object of its own, and no step of it reaches the list, so no listed
client is ever found dead.
-/

set_option autoImplicit false

namespace Workshop.FtpReaper
open Workshop.GrowingVector Workshop.FairRun Workshop.FtpAcceptor

def Reaps (s t : State) : Prop := s.acceptor = .reaping ∧ t.acceptor = .testing

/-- The sessions that had returned before the call are joined, closed and not
listed any more. -/
def Reclaimed (s t : State) : Prop :=
  ∀ i < s.service.spawned, (s.service.session i).returned = true →
    (∀ c ∈ t.service.clients, c.socketId ≠ i) ∧ Joined (t.service.session i)

def Busy (s : State) : Prop :=
  ∀ c ∈ s.service.clients, (s.service.session c.socketId).returned = false

variable {s t : State}

theorem reap_step {m : Move} (h : Inv s) (hm : step m s = some t) (hreap : Reaps s t) :
    t = { s with acceptor := .testing } := by
  have hmoved : t.acceptor ≠ s.acceptor := by
    rw [hreap.1, hreap.2]
    nofun
  obtain ⟨answer,-,hmove⟩ := (step_place hm).resolve_left hmoved
  rw [acceptorMove, hreap.1] at hmove
  simp only [reap_nothing h] at hmove
  exact (Option.some.inj hmove).symm

theorem reclaimed_iff {m : Move} (h : Inv s) (hm : step m s = some t) (hreap : Reaps s t) :
    Reclaimed s t ↔ Busy s := by
  have hlive : live s = s.service.clients := by
    rw [live, pending, hreap.1, List.append_nil]
  have hacc := h.accounts
  rw [hlive] at hacc
  obtain rfl := reap_step h hm hreap
  constructor
  · intro hreclaimed c hc
    by_contra hreturned
    rw [Bool.not_eq_false] at hreturned
    exact (hreclaimed _ (hacc.started c hc) hreturned).1 c hc rfl
  · intro hbusy i hi hreturned
    have hnot : ∀ c ∈ s.service.clients, c.socketId ≠ i := by
      rintro c hc rfl
      rw [hbusy c hc] at hreturned
      cases hreturned
    refine ⟨hnot,hacc.joined i hi ?_⟩
    intro hmem
    obtain ⟨c,hc,hid⟩ := List.mem_map.mp hmem
    exact hnot c hc hid

/-- Every call of a run reclaims the finished sessions exactly when it finds none in
the list. -/
theorem reclaimed_iff_busy (r : Run step initial) :
    (∀ k, Reaps (r.state k) (r.state (k+1)) → Reclaimed (r.state k) (r.state (k+1))) ↔
      ∀ k, Reaps (r.state k) (r.state (k+1)) → Busy (r.state k) := by
  refine forall₂_congr fun k hreap => ?_
  rcases r.next k with hpause | ⟨m,hm⟩
  · rw [Reaps, hpause] at hreap
    have hplace := hreap.1.symm.trans hreap.2
    cases hplace
  · exact reclaimed_iff (run_inv r k) hm hreap

def earlyQuit : Run step initial :=
  scripted step [.acceptor true,.acceptor true,.acceptor true,.acceptor true,.session 0 .quit,
    .session 0 .leave,.acceptor true,.acceptor true,.acceptor true] initial

/-- The client of a finished session stays in the list. -/
theorem finished_listed :
    ¬ ∀ k, Reaps (earlyQuit.state k) (earlyQuit.state (k+1)) →
      Reclaimed (earlyQuit.state k) (earlyQuit.state (k+1)) := by
  intro hreclaimed
  have hreap : Reaps (earlyQuit.state 8) (earlyQuit.state 9) := ⟨rfl,rfl⟩
  obtain ⟨hunlisted,-⟩ := hreclaimed 8 hreap 0 (by decide) rfl
  exact hunlisted _ List.mem_cons_self rfl

end Workshop.FtpReaper
