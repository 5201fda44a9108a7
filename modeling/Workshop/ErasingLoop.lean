import Mathlib

/-!
# Erasing while iterating

A loop that erases the element under its iterator and then moves the iterator
on, as it does for every other element. The element behind an erased one is
passed over, and behind the last one there is none.
-/

set_option autoImplicit false

namespace Workshop.ErasingLoop

variable {α : Type} (p : α → Bool)

/-- What such a loop leaves in its vector and what it erases, in order, with
whether the iterator is moved past the end. -/
structure Sweep (α : Type) where
  kept : List α
  erased : List α
  overrun : Bool
  deriving DecidableEq, Repr

def sweep : List α → Sweep α
  | [] => ⟨[],[],false⟩
  | a::as =>
    if p a then
      match as with
      | [] => ⟨[],[a],true⟩
      | b::bs => ⟨b::(sweep bs).kept,a::(sweep bs).erased,(sweep bs).overrun⟩
    else ⟨a::(sweep as).kept,(sweep as).erased,(sweep as).overrun⟩

def Separated (l : List α) : Prop :=
  ∀ i a, l[i]? = some a → p a = true → ∃ b, l[i+1]? = some b ∧ p b = false

variable {p}

theorem sweep_keep {a : α} (ha : ¬ p a = true) (as : List α) :
    sweep p (a::as) = ⟨a::(sweep p as).kept,(sweep p as).erased,(sweep p as).overrun⟩ := by
  rw [sweep.eq_def]
  exact if_neg ha

theorem sweep_last {a : α} (ha : p a = true) : sweep p [a] = ⟨[],[a],true⟩ := by
  rw [sweep.eq_def]
  exact if_pos ha

theorem sweep_erase {a : α} (ha : p a = true) (b : α) (bs : List α) :
    sweep p (a::b::bs) =
      ⟨b::(sweep p bs).kept,a::(sweep p bs).erased,(sweep p bs).overrun⟩ := by
  rw [sweep.eq_def]
  exact if_pos ha

theorem separated_nil : Separated p [] := by
  intro i a ha
  cases ha

theorem separated_cons {a : α} {as : List α} :
    Separated p (a::as) ↔
      (p a = true → ∃ b, as.head? = some b ∧ p b = false) ∧ Separated p as := by
  constructor
  · intro h
    refine ⟨fun ha => ?_,fun i => h (i+1)⟩
    obtain ⟨b,hb,hp⟩ := h 0 a rfl ha
    exact ⟨b,by rw [List.head?_eq_getElem?]; exact hb,hp⟩
  · rintro ⟨hhead,htail⟩ i x hx hp
    cases i with
    | zero =>
      obtain rfl : a = x := Option.some.inj hx
      obtain ⟨b,hb,hpb⟩ := hhead hp
      exact ⟨b,by rw [List.head?_eq_getElem?] at hb; exact hb,hpb⟩
    | succ i => exact htail i x hx hp

/-- The loop filters the vector exactly where no two elements to be erased are
adjacent and none of them is the last. -/
theorem sweep_filters_iff (l : List α) :
    ((sweep p l).overrun = false ∧ (sweep p l).kept = l.filter (fun a => !p a)) ↔
      Separated p l := by
  induction l using sweep.induct p with
  | case1 => simp [sweep, separated_nil]
  | case2 a ha =>
    rw [sweep_last ha, separated_cons]
    simp [ha]
  | case3 a ha b bs ih =>
    rw [sweep_erase ha, separated_cons, separated_cons, ← ih]
    cases hb : p b with
    | true =>
      constructor
      · -- `b` is passed over and stays, but a filter leaves no such element
        rintro ⟨-,hkept⟩
        have hmem : b ∈ (a::b::bs).filter (fun a => !p a) := hkept ▸ List.mem_cons_self
        simp [hb] at hmem
      · rintro ⟨hhead,-⟩
        obtain ⟨c,hc,hp⟩ := hhead ha
        obtain rfl : b = c := Option.some.inj hc
        exact absurd (hb.symm.trans hp) (by decide)
    | false => simp [ha, hb]
  | case4 a as ha ih =>
    rw [sweep_keep ha, separated_cons, ← ih]
    simp [ha]

theorem sweep_erased {l : List α} (h : Separated p l) : (sweep p l).erased = l.filter p := by
  induction l using sweep.induct p with
  | case1 => rfl
  | case2 a ha =>
    rw [sweep_last ha, List.filter_cons_of_pos ha, List.filter_nil]
  | case3 a ha b bs ih =>
    obtain ⟨hhead,htail⟩ := separated_cons.mp h
    obtain ⟨c,hc,hp⟩ := hhead ha
    obtain rfl : b = c := Option.some.inj hc
    rw [sweep_erase ha, List.filter_cons_of_pos ha, List.filter_cons_of_neg (by simp [hp]),
      ih (separated_cons.mp htail).2]
  | case4 a as ha ih =>
    rw [sweep_keep ha, List.filter_cons_of_neg ha]
    exact ih (separated_cons.mp h).2

end Workshop.ErasingLoop
