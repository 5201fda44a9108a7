import Workshop.FtpShutdown

/-!
# How often the listening descriptor is closed

Both threads close the listening socket: `stop` after shutting it down, and
`accept` before it throws. When `stop` finds the acceptor waiting for a
connection, the shutdown makes `accept` fail, and the descriptor is closed
once more.
-/

set_option autoImplicit false

namespace Workshop.FtpListener
open Workshop.GrowingVector Workshop.FairRun Workshop.FtpAcceptor Workshop.FtpShutdown

def Leaving (s : State) : Prop :=
  s.acceptor = .closing ∨ s.acceptor = .returning ∨ s.acceptor = .returned

def mainCloses (s t : State) : ℕ := if s.main = .shutting ∧ t.main = .closingAgain then 1 else 0

def acceptorCloses (s t : State) : ℕ :=
  if s.acceptor = .accepting ∧ t.acceptor = .closing then 1 else 0

def closes (r : Run step initial) : ℕ → ℕ
  | 0 => 0
  | k+1 => closes r k+(mainCloses (r.state k) (r.state (k+1))+
      acceptorCloses (r.state k) (r.state (k+1)))

inductive Turns (s t : State) : Prop where
  | idle (main : t.main = s.main) (acceptor : t.acceptor = s.acceptor)
      (socket : t.socket = s.socket)
  | before (main : ¬ Past s) (next : ¬ Past t) (acceptor : t.acceptor = s.acceptor)
      (socket : t.socket = s.socket)
  | shuts (main : s.main = .shutting) (listening : s.socket = .listening)
      (next : t.main = .closingAgain) (acceptor : t.acceptor = s.acceptor)
      (socket : t.socket = .closed)
  | behind (main : Past s) (next : Past t) (acceptor : t.acceptor = s.acceptor)
      (socket : t.socket = s.socket) (ended : t.main = .ended → s.acceptor = .returned)
  | creates (main : t.main = s.main) (acceptor : s.acceptor = .creating)
      (next : t.acceptor = .testing) (socket : t.socket = .listening)
  | refuses (main : t.main = s.main) (acceptor : s.acceptor = .accepting)
      (next : t.acceptor = .closing) (socket : t.socket = .closed)
  | goes (main : t.main = s.main) (acceptor : s.acceptor = .accepting → s.socket = .listening ∧
        t.acceptor ≠ .closing)
      (leaving : Leaving s → Leaving t) (returned : s.acceptor ≠ .returned)
      (next : t.acceptor ≠ .creating) (socket : t.socket = s.socket)

section Steps
variable {s t : State}

theorem behind_turns {x : Except Stop Service} {next : State → State}
    (hm : s.behind x next = some t) (h : ∀ v, Turns s (next { s with service := v })) :
    Turns s t := by
  rcases behind_cases hm with ⟨v,-,rfl⟩ | ⟨e,rfl⟩
  · exact h v
  · exact .idle rfl rfl rfl

theorem mainMove_turns (hm : mainMove s = some t) : Turns s t := by
  unfold mainMove at hm
  split at hm
  · cases hm
  · rename_i hplace
    exact behind_turns hm fun v => .before (by simp [Past, hplace]) (by simp [Past]) rfl rfl
  · rename_i hplace
    cases hm
    exact .before (by simp [Past, hplace]) (by simp [Past]) rfl rfl
  · rename_i hplace
    split at hm
    · cases hm
      exact .shuts hplace ‹_› rfl rfl rfl
    · cases hm
      exact .before (by simp [Past, hplace]) (by simp [Past]) rfl rfl
  · rename_i hplace
    exact behind_turns hm fun v =>
      .behind (.inl hplace) (.inr (.inl rfl)) rfl rfl fun h => MainAt.noConfusion h
  · rename_i hplace
    split at hm
    · cases hm
      exact .behind (.inr (.inl hplace)) (.inr (.inr rfl)) rfl rfl fun _ => ‹_›
    · cases hm
  · cases hm
  · cases hm

theorem acceptorMove_turns {answer : Bool} (hm : acceptorMove answer s = some t) : Turns s t := by
  unfold acceptorMove at hm
  split at hm
  · rename_i hplace
    split at hm
    · cases hm
      exact .creates rfl hplace rfl rfl
    · cases hm
      exact .goes rfl (by simp [hplace]) (by simp [Leaving]) (by simp [hplace]) nofun rfl
  · rename_i hplace
    cases hm
    refine .goes rfl (by simp [hplace]) (by simp [Leaving, hplace]) (by simp [hplace]) ?_ rfl
    cases s.isRunning <;> exact nofun
  · rename_i hplace
    split at hm
    · rename_i hanswer
      cases hm
      exact .goes rfl (fun _ => ⟨hanswer.2,nofun⟩) (by simp [Leaving, hplace]) (by simp [hplace])
        nofun rfl
    · cases hm
      exact .refuses rfl hplace rfl rfl
  · rename_i hplace
    cases hm
    exact .goes rfl (by simp [hplace]) (by simp [Leaving, hplace]) (by simp [hplace]) nofun rfl
  · rename_i hplace
    cases hm
    exact .goes rfl (by simp [hplace]) (by simp [Leaving, hplace]) (by simp [hplace]) nofun rfl
  · rename_i hplace
    cases hm
    exact .goes rfl (by simp [hplace]) (by simp [Leaving, hplace]) (by simp [hplace]) nofun rfl
  · rename_i hplace
    exact behind_turns hm fun v => .goes rfl (by simp [hplace]) (by simp [Leaving, hplace])
      (by simp [hplace]) nofun rfl
  · rename_i hplace
    exact behind_turns hm fun v => .goes rfl (by simp [hplace]) (by simp [Leaving])
      (by simp [hplace]) nofun rfl
  · rename_i hplace
    split at hm
    · cases hm
      exact .goes rfl (by simp [hplace]) (by simp [Leaving]) (by simp [hplace]) nofun rfl
    · cases hm
      exact .idle rfl rfl rfl
  · cases hm

theorem step_turns {m : Move} (hm : step m s = some t) : Turns s t := by
  unfold step at hm
  split at hm
  · cases m with
    | quitTyped =>
      dsimp only at hm
      split at hm
      · rename_i htyping
        cases hm
        exact .before (by simp [Past, htyping]) (by simp [Past]) rfl rfl
      · cases hm
    | main => exact mainMove_turns hm
    | acceptor answer => exact acceptorMove_turns hm
    | session i turn =>
      obtain ⟨f,-,rfl⟩ := sessionMove_cases hm
      exact .idle rfl rfl rfl
  · cases hm

theorem mainCloses_other (h : s.main ≠ .shutting ∨ t.main ≠ .closingAgain) :
    mainCloses s t = 0 := if_neg (not_and_or.mpr h)

theorem acceptorCloses_other (h : s.acceptor ≠ .accepting ∨ t.acceptor ≠ .closing) :
    acceptorCloses s t = 0 := if_neg (not_and_or.mpr h)

theorem mainCloses_same (h : t.main = s.main) : mainCloses s t = 0 := by
  apply mainCloses_other
  rw [h]
  cases s.main <;> simp

theorem acceptorCloses_same (h : t.acceptor = s.acceptor) : acceptorCloses s t = 0 := by
  apply acceptorCloses_other
  rw [h]
  cases s.acceptor <;> simp

end Steps

/-- The accounts after some calls by the main thread and by the acceptor. It is
late when the acceptor was seen in `accept` after `stop` had closed the socket. -/
structure Tally (s : State) (late : Prop) (m a : ℕ) : Prop where
  main : m = 1 ↔ Past s
  mains : m ≤ 1
  acceptors : a ≤ 1
  left : a = 1 → Leaving s
  closed : 0 < m+a → s.socket = .closed
  unset : s.acceptor = .creating → s.socket = .unset
  early : a = 1 → late ∨ ¬ Past s
  seen : Past s → s.acceptor = .accepting → late
  waits : late → Past s ∧ (s.acceptor = .accepting ∨ a = 1)
  ended : s.main = .ended → s.acceptor = .returned

section Steps
variable {s t : State} {late : Prop} {m a : ℕ}

theorem past_same (h : t.main = s.main) : Past t ↔ Past s := by simp only [Past, h]

theorem leaving_same (h : t.acceptor = s.acceptor) : Leaving t ↔ Leaving s := by
  simp only [Leaving, h]

theorem tally_main (h : Tally s late m a) (hpast : Past t ↔ Past s)
    (acceptor : t.acceptor = s.acceptor) (socket : t.socket = s.socket)
    (hended : t.main = .ended → s.acceptor = .returned) :
    Tally t (late ∨ Past t ∧ t.acceptor = .accepting) m a where
  main := h.main.trans hpast.symm
  mains := h.mains
  acceptors := h.acceptors
  left ha := (leaving_same acceptor).mpr (h.left ha)
  closed hcalls := socket.trans (h.closed hcalls)
  unset hcreating := socket.trans (h.unset (acceptor.symm.trans hcreating))
  early ha := by
    rcases h.early ha with hlate | hbefore
    · exact .inl (.inl hlate)
    · exact .inr (mt hpast.mp hbefore)
  seen hpast haccepting := .inr ⟨hpast,haccepting⟩
  waits hlate := by
    rcases hlate with hlate | ⟨hnow,haccepting⟩
    · obtain ⟨hs,hwaits⟩ := h.waits hlate
      exact ⟨hpast.mpr hs,hwaits.imp_left acceptor.trans⟩
    · exact ⟨hnow,.inl haccepting⟩
  ended hmain := acceptor.trans (hended hmain)

theorem tally_shuts (h : Tally s late m a) (main : s.main = .shutting)
    (listening : s.socket = .listening) (next : t.main = .closingAgain)
    (acceptor : t.acceptor = s.acceptor) (socket : t.socket = .closed) :
    Tally t (late ∨ Past t ∧ t.acceptor = .accepting) (m+1) a := by
  have hpast : Past t := .inl next
  have hnone : m = 0 ∧ a = 0 := by
    by_contra hsome
    have hclosed := h.closed (by omega)
    rw [listening] at hclosed
    cases hclosed
  obtain ⟨rfl,rfl⟩ := hnone
  have hlate : ¬ late := by
    intro hlate
    have hs := (h.waits hlate).1
    simp [Past, main] at hs
  constructor
  · simpa using hpast
  · exact le_rfl
  · exact Nat.zero_le 1
  · intro ha
    cases ha
  · exact fun _ => socket
  · intro hcreating
    rw [h.unset (acceptor.symm.trans hcreating)] at listening
    cases listening
  · intro ha
    cases ha
  · exact fun hs haccepting => .inr ⟨hs,haccepting⟩
  · rintro (hl | ⟨hs,haccepting⟩)
    · exact absurd hl hlate
    · exact ⟨hs,.inl haccepting⟩
  · intro hended
    rw [next] at hended
    cases hended

theorem tally_creates (h : Tally s late m a) (main : t.main = s.main)
    (acceptor : s.acceptor = .creating) (next : t.acceptor = .testing) :
    Tally t (late ∨ Past t ∧ t.acceptor = .accepting) m a := by
  have hnone : m = 0 ∧ a = 0 := by
    by_contra hsome
    have hclosed := h.closed (by omega)
    rw [h.unset acceptor] at hclosed
    cases hclosed
  obtain ⟨rfl,rfl⟩ := hnone
  have hbefore : ¬ Past s := fun hs => absurd (h.main.mpr hs) (by decide)
  have hother : ¬ Past t := mt (past_same main).mp hbefore
  constructor
  · simpa using hother
  · exact Nat.zero_le 1
  · exact Nat.zero_le 1
  · intro ha
    cases ha
  · intro hcalls
    cases hcalls
  · intro hcreating
    rw [next] at hcreating
    cases hcreating
  · intro ha
    cases ha
  · exact fun hs => absurd hs hother
  · rintro (hl | ⟨hs,-⟩)
    · exact absurd (h.waits hl).1 hbefore
    · exact absurd hs hother
  · intro hended
    exact absurd (.inr (.inr hended)) hother

theorem tally_refuses (h : Tally s late m a) (main : t.main = s.main)
    (acceptor : s.acceptor = .accepting) (next : t.acceptor = .closing)
    (socket : t.socket = .closed) :
    Tally t (late ∨ Past t ∧ t.acceptor = .accepting) m (a+1) := by
  have hpast := past_same main
  have hfirst : a = 0 := by
    have hacceptors := h.acceptors
    by_contra hsome
    have hleft := h.left (by omega)
    simp [Leaving, acceptor] at hleft
  subst hfirst
  constructor
  · exact h.main.trans hpast.symm
  · exact h.mains
  · exact le_rfl
  · exact fun _ => .inl next
  · exact fun _ => socket
  · intro hcreating
    rw [next] at hcreating
    cases hcreating
  · intro _
    by_cases hs : Past s
    · exact .inl (.inl (h.seen hs acceptor))
    · exact .inr (mt hpast.mp hs)
  · intro _ haccepting
    rw [next] at haccepting
    cases haccepting
  · rintro (hl | ⟨hs,-⟩)
    · exact ⟨hpast.mpr (h.waits hl).1,.inr rfl⟩
    · exact ⟨hs,.inr rfl⟩
  · intro hended
    rw [h.ended (main.symm.trans hended)] at acceptor
    cases acceptor

theorem tally_goes (h : Tally s late m a) (main : t.main = s.main)
    (acceptor : s.acceptor = .accepting → s.socket = .listening)
    (leaving : Leaving s → Leaving t) (returned : s.acceptor ≠ .returned)
    (next : t.acceptor ≠ .creating) (socket : t.socket = s.socket) :
    Tally t (late ∨ Past t ∧ t.acceptor = .accepting) m a where
  main := h.main.trans (past_same main).symm
  mains := h.mains
  acceptors := h.acceptors
  left ha := leaving (h.left ha)
  closed hcalls := socket.trans (h.closed hcalls)
  unset hcreating := absurd hcreating next
  early ha := by
    rcases h.early ha with hlate | hbefore
    · exact .inl (.inl hlate)
    · exact .inr (mt (past_same main).mp hbefore)
  seen hpast haccepting := .inr ⟨hpast,haccepting⟩
  waits hlate := by
    rcases hlate with hlate | ⟨hnow,haccepting⟩
    · obtain ⟨hs,haccepting | ha⟩ := h.waits hlate
      · have hcalls := h.main.mpr hs
        have hclosed := h.closed (by omega)
        rw [acceptor haccepting] at hclosed
        cases hclosed
      · exact ⟨(past_same main).mpr hs,.inr ha⟩
    · exact ⟨hnow,.inl haccepting⟩
  ended hmain := absurd (h.ended (main.symm.trans hmain)) returned

theorem tally_step (h : Tally s late m a) (ht : Turns s t) :
    Tally t (late ∨ Past t ∧ t.acceptor = .accepting) (m+mainCloses s t)
      (a+acceptorCloses s t) := by
  cases ht with
  | idle main acceptor socket =>
    rw [mainCloses_same main, acceptorCloses_same acceptor]
    exact tally_main h (past_same main) acceptor socket fun hmain => h.ended (main.symm.trans hmain)
  | before main next acceptor socket =>
    rw [mainCloses_other (.inr fun hclosing => next (.inl hclosing)),
      acceptorCloses_same acceptor]
    refine tally_main h (iff_of_false next main) acceptor socket ?_
    exact fun hended => absurd (.inr (.inr hended)) next
  | shuts main listening next acceptor socket =>
    rw [mainCloses, if_pos ⟨main,next⟩, acceptorCloses_same acceptor]
    exact tally_shuts h main listening next acceptor socket
  | behind main next acceptor socket ended =>
    have hother : s.main ≠ .shutting := by
      intro hshutting
      simp [Past, hshutting] at main
    rw [mainCloses_other (.inl hother), acceptorCloses_same acceptor]
    exact tally_main h (iff_of_true next main) acceptor socket ended
  | creates main acceptor next socket =>
    have hother : s.acceptor ≠ .accepting := by
      rw [acceptor]
      exact AcceptorAt.noConfusion
    rw [mainCloses_same main, acceptorCloses_other (.inl hother)]
    exact tally_creates h main acceptor next
  | refuses main acceptor next socket =>
    rw [mainCloses_same main, acceptorCloses, if_pos ⟨acceptor,next⟩]
    exact tally_refuses h main acceptor next socket
  | goes main acceptor leaving returned next socket =>
    have hother : s.acceptor ≠ .accepting ∨ t.acceptor ≠ .closing := by
      by_cases haccepting : s.acceptor = .accepting
      · exact .inr (acceptor haccepting).2
      · exact .inl haccepting
    rw [mainCloses_same main, acceptorCloses_other hother]
    exact tally_goes h main (fun haccepting => (acceptor haccepting).1) leaving returned next socket

end Steps

section Runs
variable (r : Run step initial)

/-- Up to a time the acceptor was in `accept` with the socket already shut down. -/
def Late (k : ℕ) : Prop := ∃ j ≤ k, Past (r.state j) ∧ (r.state j).acceptor = .accepting

theorem late_succ (k : ℕ) :
    Late r (k+1) ↔ Late r k ∨ Past (r.state (k+1)) ∧ (r.state (k+1)).acceptor = .accepting := by
  constructor
  · rintro ⟨j,hj,h⟩
    rcases Nat.le_succ_iff.mp hj with hle | rfl
    · exact .inl ⟨j,hle,h⟩
    · exact .inr h
  · rintro (⟨j,hj,h⟩ | h)
    · exact ⟨j,Nat.le_succ_of_le hj,h⟩
    · exact ⟨k+1,le_rfl,h⟩

theorem initial_tally : Tally initial False 0 0 where
  main := by simp [Past, initial]
  mains := Nat.zero_le 1
  acceptors := Nat.zero_le 1
  left ha := by cases ha
  closed hcalls := by cases hcalls
  unset _ := rfl
  early ha := by cases ha
  seen hpast := by simp [Past, initial] at hpast
  waits hlate := hlate.elim
  ended hmain := MainAt.noConfusion hmain

theorem run_tally (k : ℕ) :
    ∃ m a, closes r k = m+a ∧ Tally (r.state k) (Late r k) m a := by
  induction k with
  | zero =>
    refine ⟨0,0,rfl,?_⟩
    have hlate : ¬ Late r 0 := by
      rintro ⟨j,hj,hpast,-⟩
      rw [Nat.le_zero.mp hj, r.init] at hpast
      simp [Past, initial] at hpast
    rw [r.init, eq_false hlate]
    exact initial_tally
  | succ k ih =>
    obtain ⟨m,a,hcloses,htally⟩ := ih
    have hturns : Turns (r.state k) (r.state (k+1)) := by
      rcases r.next k with hpause | ⟨move,hm⟩
      · rw [hpause]
        exact .idle rfl rfl rfl
      · exact step_turns hm
    have hnext := tally_step htally hturns
    rw [← late_succ] at hnext
    refine ⟨_,_,?_,hnext⟩
    rw [closes, hcloses]
    omega

end Runs

/-- In every run the listening descriptor is closed at most twice. If `main` gets to
its end it was closed, and twice exactly when the acceptor was in `accept` behind
the shutdown. -/
theorem listener_closed (r : Run step initial) (k : ℕ) :
    closes r k ≤ 2 ∧ ((r.state k).main = .ended →
      1 ≤ closes r k ∧ (closes r k = 2 ↔
        ∃ j ≤ k, Past (r.state j) ∧ (r.state j).acceptor = .accepting)) := by
  obtain ⟨m,a,hcloses,h⟩ := run_tally r k
  have hmains := h.mains
  have hacceptors := h.acceptors
  rw [hcloses]
  refine ⟨by omega,?_⟩
  intro hended
  have hpast : Past (r.state k) := .inr (.inr hended)
  have hmain := h.main.mpr hpast
  refine ⟨by omega,?_⟩
  constructor
  · intro htwice
    rcases h.early (by omega) with hlate | hbefore
    · exact hlate
    · exact absurd hpast hbefore
  · intro hlate
    rcases (h.waits hlate).2 with haccepting | ha
    · rw [h.ended hended] at haccepting
      cases haccepting
    · omega

theorem quit_waits :
    Past (play step quitMoves initial 12) ∧
      (play step quitMoves initial 12).acceptor = .accepting := by
  constructor
  · exact .inl (by decide +kernel)
  · decide +kernel

theorem listener_closed_quit : closes (scripted step quitMoves initial) 17 = 2 := by
  have hplayed : ∀ k, (scripted step quitMoves initial).state k = play step quitMoves initial k :=
    fun _ => rfl
  have hclosed := (listener_closed (scripted step quitMoves initial) 17).2
  rw [hplayed] at hclosed
  refine (hclosed quit_ends.1).2.mpr ⟨12,by decide,?_⟩
  rw [hplayed]
  exact quit_waits

end Workshop.FtpListener
