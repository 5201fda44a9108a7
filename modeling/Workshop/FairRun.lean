import Mathlib

/-!
# Runs of a machine under fair scheduling

A machine moves when a thread or its surroundings make a move that is possible
in its state. A run lists the states at all times and may also pause. A thread
is treated fairly when it does not stay ready forever without moving.
-/

set_option autoImplicit false

namespace Workshop.FairRun

variable {S M : Type}

structure Run (step : M → S → Option S) (start : S) where
  state : ℕ → S
  init : state 0 = start
  next : ∀ k, state (k+1) = state k ∨ ∃ m, step m (state k) = some (state (k+1))

def Moves (step : M → S → Option S) (mine : M → Prop) (s t : S) : Prop :=
  ∃ m, mine m ∧ step m s = some t

namespace Run
variable {step : M → S → Option S} {start : S} (r : Run step start)

theorem always {inv : S → Prop} (h0 : inv start)
    (hstep : ∀ s m t, inv s → step m s = some t → inv t) (k : ℕ) : inv (r.state k) := by
  induction k with
  | zero => rwa [r.init]
  | succ k ih =>
    rcases r.next k with hpause | ⟨m,hm⟩
    · rwa [hpause]
    · exact hstep _ m _ ih hm

theorem stays (inv : S → Prop) {k : ℕ} (hk : inv (r.state k))
    (hstep : ∀ n m, k ≤ n → inv (r.state n) → step m (r.state n) = some (r.state (n+1)) →
      inv (r.state (n+1))) {n : ℕ} (hn : k ≤ n) : inv (r.state n) := by
  induction n, hn using Nat.le_induction with
  | base => exact hk
  | succ n hn ih =>
    rcases r.next n with hpause | ⟨m,hm⟩
    · rwa [hpause]
    · exact hstep n m hn ih hm

def Fair (mine : M → Prop) (ready : S → Prop) : Prop :=
  ∀ k, (∀ n ≥ k, ready (r.state n)) → ∃ n ≥ k, Moves step mine (r.state n) (r.state (n+1))

variable {r}

/-- The rule for progress: the thread is ready as long as the measure is
positive, its moves lower the measure, and no other move raises it. -/
theorem Fair.reaches_zero {mine : M → Prop} {ready : S → Prop} (hfair : r.Fair mine ready)
    (measure : S → ℕ) {k : ℕ}
    (hready : ∀ n ≥ k, 0 < measure (r.state n) → ready (r.state n))
    (hkeep : ∀ n ≥ k, measure (r.state (n+1)) ≤ measure (r.state n))
    (hlower : ∀ n ≥ k, 0 < measure (r.state n) → Moves step mine (r.state n) (r.state (n+1)) →
      measure (r.state (n+1)) < measure (r.state n)) :
    ∃ n ≥ k, measure (r.state n) = 0 := by
  induction hm : measure (r.state k) using Nat.strong_induction_on generalizing k with
  | _ m ih =>
    have hle : ∀ n ≥ k, measure (r.state n) ≤ measure (r.state k) := by
      intro n hn
      induction n, hn using Nat.le_induction with
      | base => exact le_rfl
      | succ n hn ih => exact (hkeep n hn).trans ih
    by_contra hnone
    push Not at hnone
    have hpos : ∀ n ≥ k, 0 < measure (r.state n) := fun n hn => Nat.pos_of_ne_zero (hnone n hn)
    obtain ⟨n,hn,hmove⟩ := hfair k fun n hn => hready n hn (hpos n hn)
    have hlt := hlower n hn (hpos n hn) hmove
    have hfirst := hle n hn
    obtain ⟨j,hj,hzero⟩ := ih (measure (r.state (n+1))) (by omega) (k := n+1)
      (fun i hi => hready i (by omega)) (fun i hi => hkeep i (by omega))
      (fun i hi => hlower i (by omega)) rfl
    exact hnone j (by omega) hzero

end Run

def play (step : M → S → Option S) (moves : List M) (s : S) : ℕ → S
  | 0 => s
  | k+1 =>
    match moves[k]? with
    | some m => (step m (play step moves s k)).getD (play step moves s k)
    | none => play step moves s k

def scripted (step : M → S → Option S) (moves : List M) (s : S) : Run step s where
  state := play step moves s
  init := rfl
  next := by
    intro k
    rw [play]
    split
    · rename_i m _
      cases h : step m (play step moves s k) with
      | none => exact .inl rfl
      | some t => exact .inr ⟨m,h⟩
    · exact .inl rfl

theorem play_ends (step : M → S → Option S) (moves : List M) (s : S) {k : ℕ}
    (h : moves.length ≤ k) : play step moves s k = play step moves s moves.length := by
  induction k, h using Nat.le_induction with
  | base => rfl
  | succ k hk ih => rw [play, List.getElem?_eq_none hk, ih]

end Workshop.FairRun
