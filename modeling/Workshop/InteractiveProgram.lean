import Mathlib

/-!
# Programs that talk to their surroundings

A program either returns, stops with a reason, or makes a call and goes on
with the answer. The calls come from an interface. A handler answers them one
after another, and a contract says what a program may call when it can rely
on certain answers.
-/

set_option autoImplicit false

namespace Workshop.InteractiveProgram

structure Interface where
  Op : Type
  Res : Op → Type

inductive Program (I : Interface) (ε α : Type) where
  | ret (a : α)
  | fail (e : ε)
  | call (op : I.Op) (next : I.Res op → Program I ε α)

variable {I J : Interface} {ε α β σ L : Type}

namespace Program

def bind : Program I ε α → (α → Program I ε β) → Program I ε β
  | .ret a, f => f a
  | .fail e, _ => .fail e
  | .call op next, f => .call op fun r => (next r).bind f

instance : Monad (Program I ε) where
  pure := .ret
  bind := bind

def perform (op : I.Op) : Program I ε (I.Res op) := .call op .ret

def lift : Except ε α → Program I ε α
  | .ok a => .ret a
  | .error e => .fail e

@[simp] theorem pure_eq (a : α) : (pure a : Program I ε α) = .ret a := rfl

@[simp] theorem ret_bind (a : α) (f : α → Program I ε β) : (ret a >>= f) = f a := rfl

@[simp] theorem fail_bind (e : ε) (f : α → Program I ε β) :
    ((fail e : Program I ε α) >>= f) = .fail e := rfl

@[simp] theorem call_bind (op : I.Op) (next : I.Res op → Program I ε α)
    (f : α → Program I ε β) : (call op next >>= f) = .call op fun r => next r >>= f := rfl

@[simp] theorem perform_bind (op : I.Op) (f : I.Res op → Program I ε β) :
    (perform op >>= f) = .call op f := rfl

@[simp] theorem lift_ok (a : α) : (lift (.ok a) : Program I ε α) = .ret a := rfl

@[simp] theorem lift_error (e : ε) : (lift (.error e) : Program I ε α) = .fail e := rfl

def attempt (handler : ε → Program I ε α) : Program I ε α → Program I ε α
  | .ret a => .ret a
  | .fail e => handler e
  | .call op next => .call op fun r => (next r).attempt handler

/-- A loop whose body goes on with `inl` and leaves with `inr`. The number
bounds the iterations, and `cut` is the reason when they are used up. -/
def iterate (cut : ε) (body : σ → Program I ε (σ ⊕ β)) : ℕ → σ → Program I ε β
  | 0, _ => .fail cut
  | n+1, s => body s >>= fun
    | .inl s => iterate cut body n s
    | .inr b => .ret b

def interp (f : (op : I.Op) → Program J ε (I.Res op)) : Program I ε α → Program J ε α
  | .ret a => .ret a
  | .fail e => .fail e
  | .call op next => f op >>= fun r => (next r).interp f

theorem bind_bind {γ : Type} (p : Program I ε α) (f : α → Program I ε β)
    (g : β → Program I ε γ) : (p >>= f >>= g) = p >>= fun a => f a >>= g := by
  induction p with
  | ret a => rfl
  | fail e => rfl
  | call op next ih => exact congrArg _ (funext fun r => ih r)

theorem interp_bind (f : (op : I.Op) → Program J ε (I.Res op)) (p : Program I ε α)
    (g : α → Program I ε β) : (p >>= g).interp f = p.interp f >>= fun a => (g a).interp f := by
  induction p with
  | ret a => rfl
  | fail e => rfl
  | call op next ih =>
    have hnext : (fun r => (next r >>= g).interp f) =
        fun r => (next r).interp f >>= fun a => (g a).interp f := funext ih
    rw [call_bind, interp, interp, bind_bind, hnext]

end Program

open Program

section Handlers

abbrev Handler (I : Interface) (ε σ : Type) :=
  (op : I.Op) → σ → Except ε (I.Res op) × σ

def run (H : Handler I ε σ) : Program I ε α → σ → Except ε α × σ
  | .ret a, s => (.ok a,s)
  | .fail e, s => (.error e,s)
  | .call op next, s =>
    match H op s with
    | (.ok r,s) => run H (next r) s
    | (.error e,s) => (.error e,s)

def calls (H : Handler I ε σ) : Program I ε α → σ → List I.Op
  | .ret _, _ => []
  | .fail _, _ => []
  | .call op next, s =>
    op::match H op s with
      | (.ok r,s) => calls H (next r) s
      | (.error _,_) => []

def andThen (x : Except ε α × σ) (f : α → σ → Except ε β × σ) : Except ε β × σ :=
  match x with
  | (.ok a,s) => f a s
  | (.error e,s) => (.error e,s)

@[simp] theorem andThen_ok (a : α) (s : σ) (f : α → σ → Except ε β × σ) :
    andThen (.ok a,s) f = f a s := rfl

@[simp] theorem andThen_error (e : ε) (s : σ) (f : α → σ → Except ε β × σ) :
    andThen (.error e,s) f = (.error e,s) := rfl

variable (H : Handler I ε σ)

@[simp] theorem run_ret (a : α) (s : σ) : run H (.ret a) s = (.ok a,s) := rfl

@[simp] theorem run_fail (e : ε) (s : σ) :
    run H (.fail e : Program I ε α) s = (.error e,s) := rfl

theorem run_call (op : I.Op) (next : I.Res op → Program I ε α) (s : σ) :
    run H (.call op next) s = andThen (H op s) fun r s => run H (next r) s := by
  rw [run]
  rcases H op s with ⟨r | r,s'⟩ <;> rfl

theorem run_bind (p : Program I ε α) (f : α → Program I ε β) (s : σ) :
    run H (p >>= f) s = andThen (run H p s) fun a s => run H (f a) s := by
  induction p generalizing s with
  | ret a => rfl
  | fail e => rfl
  | call op next ih =>
    rw [call_bind, run_call, run_call]
    rcases H op s with ⟨e | r,s'⟩
    · rfl
    · exact ih r s'

theorem run_bind_stops (p : Program I ε α) (f : α → Program I ε β) (s : σ) (e : ε) :
    (run H (p >>= f) s).1 = .error e ↔ (run H p s).1 = .error e ∨
      ∃ a s', run H p s = (.ok a,s') ∧ (run H (f a) s').1 = .error e := by
  rw [run_bind]
  rcases run H p s with ⟨e' | a,s'⟩
  · simp
  · simp

theorem run_bind_ret_stops (p : Program I ε α) (f : α → β) (s : σ) (e : ε) :
    (run H (p >>= fun a => .ret (f a)) s).1 = .error e ↔ (run H p s).1 = .error e := by
  simp [run_bind_stops]

def turns {τ : Type} (body : τ → Program I ε (τ ⊕ β)) : ℕ → τ → σ → List (τ × σ)
  | 0, _, _ => []
  | n+1, t, s =>
    (t,s)::match run H (body t) s with
      | (.ok (.inl t),s) => turns body n t s
      | _ => []

/-- A loop that still has turns left stops exactly where one of them does. -/
theorem iterate_stops_iff {τ : Type} {cut e : ε} (hcut : e ≠ cut)
    (body : τ → Program I ε (τ ⊕ β)) (n : ℕ) (t : τ) (s : σ) :
    (run H (iterate cut body n t) s).1 = .error e ↔
      ∃ u ∈ turns H body n t s, (run H (body u.1) u.2).1 = .error e := by
  induction n generalizing t s with
  | zero => simp [iterate, turns, hcut.symm]
  | succ n ih =>
    rw [iterate, run_bind_stops, turns]
    rcases hbody : run H (body t) s with ⟨e' | t' | b,s'⟩
    · simp [hbody]
    · simp [hbody, ih]
    · simp [hbody]

/-- A `catch` sees the reasons of the program itself. Those of the answering
side have to be reasons it lets through. -/
theorem run_attempt (handler : ε → Program I ε α) (p : Program I ε α) (s : σ)
    (hH : ∀ op s e, (H op s).1 = .error e → handler e = .fail e) :
    run H (p.attempt handler) s =
      match run H p s with
      | (.ok a,s) => (.ok a,s)
      | (.error e,s) => run H (handler e) s := by
  induction p generalizing s with
  | ret a => rfl
  | fail e => rfl
  | call op next ih =>
    rw [attempt, run_call, run_call]
    rcases hs : H op s with ⟨e | r,s'⟩
    · have he := hH op s e (by rw [hs])
      simp only [andThen_error, he, run_fail]
    · exact ih r s'

theorem run_interp (f : (op : J.Op) → Program I ε (J.Res op)) (p : Program J ε α) (s : σ) :
    run H (p.interp f) s = run (fun op s => run H (f op) s) p s := by
  induction p generalizing s with
  | ret a => rfl
  | fail e => rfl
  | call op next ih =>
    rw [interp, run_bind, run_call]
    exact congrArg _ (funext fun r => funext fun s => ih r s)

end Handlers

/-- What a program may call and which answers it relies on. Both can depend
on a view of the calls made so far. -/
structure Contract (I : Interface) (L : Type) where
  may : L → I.Op → Prop
  rely : L → (op : I.Op) → I.Res op → Prop
  view : L → (op : I.Op) → I.Res op → L

/-- Every call is allowed, and the run ends in `Q` when it returns and in `R`
when it stops, as long as the answers are the ones relied on. -/
def Keeps (c : Contract I L) (Q : α → L → Prop) (R : ε → L → Prop) : Program I ε α → L → Prop
  | .ret a, l => Q a l
  | .fail e, l => R e l
  | .call op next, l => c.may l op ∧ ∀ r, c.rely l op r → Keeps c Q R (next r) (c.view l op r)

section Contracts
variable {c : Contract I L} {Q : β → L → Prop} {R : ε → L → Prop}

theorem keeps_mono {Q Q' : α → L → Prop} {R R' : ε → L → Prop} {p : Program I ε α} {l : L}
    (hQ : ∀ a l, Q a l → Q' a l) (hR : ∀ e l, R e l → R' e l) (h : Keeps c Q R p l) :
    Keeps c Q' R' p l := by
  induction p generalizing l with
  | ret a => exact hQ a l h
  | fail e => exact hR e l h
  | call op next ih => exact ⟨h.1,fun r hr => ih r (h.2 r hr)⟩

theorem keeps_bind {p : Program I ε α} {f : α → Program I ε β} {l : L}
    (h : Keeps c (fun a l => Keeps c Q R (f a) l) R p l) : Keeps c Q R (p >>= f) l := by
  induction p generalizing l with
  | ret a => exact h
  | fail e => exact h
  | call op next ih => exact ⟨h.1,fun r hr => ih r (h.2 r hr)⟩

theorem keeps_attempt {p : Program I ε β} {handler : ε → Program I ε β} {l : L}
    (h : Keeps c Q (fun e l => Keeps c Q R (handler e) l) p l) :
    Keeps c Q R (p.attempt handler) l := by
  induction p generalizing l with
  | ret a => exact h
  | fail e => exact h
  | call op next ih => exact ⟨h.1,fun r hr => ih r (h.2 r hr)⟩

theorem keeps_iterate {cut : ε} {body : σ → Program I ε (σ ⊕ β)} (inv : σ → L → Prop)
    (hbody : ∀ s l, inv s l →
      Keeps c (fun x l => x.elim (fun s => inv s l) (fun b => Q b l)) R (body s) l)
    (hcut : ∀ s l, inv s l → R cut l) (n : ℕ) (s : σ) (l : L) (h : inv s l) :
    Keeps c Q R (iterate cut body n s) l := by
  induction n generalizing s l with
  | zero => exact hcut s l h
  | succ n ih =>
    apply keeps_bind
    apply keeps_mono _ (fun _ _ h => h) (hbody s l h)
    intro x l' hx
    cases x with
    | inl s' => exact ih s' l' hx
    | inr b => exact hx

structure Serves (c : Contract I L) (H : Handler I ε σ) (sim : L → σ → Prop) : Prop where
  answers : ∀ l s op, sim l s → c.may l op →
    ∃ r s', H op s = (.ok r,s') ∧ c.rely l op r ∧ sim (c.view l op r) s'

/-- A program that keeps the contract runs to an end the contract promises. -/
theorem keeps_run {H : Handler I ε σ} {sim : L → σ → Prop} (hH : Serves c H sim)
    {p : Program I ε β} {l : L} {s : σ} (hp : Keeps c Q R p l) (hs : sim l s) :
    (∃ b s' l', run H p s = (.ok b,s') ∧ sim l' s' ∧ Q b l') ∨
      ∃ e s' l', run H p s = (.error e,s') ∧ sim l' s' ∧ R e l' := by
  induction p generalizing l s with
  | ret b => exact .inl ⟨b,s,l,rfl,hs,hp⟩
  | fail e => exact .inr ⟨e,s,l,rfl,hs,hp⟩
  | call op next ih =>
    obtain ⟨r,s',hans,hrely,hsim⟩ := hH.answers l s op hs hp.1
    rw [run_call, hans, andThen_ok]
    exact ih r (hp.2 r hrely) hsim

end Contracts

structure Event (I : Interface) where
  op : I.Op
  res : I.Res op

inductive Performs : Program I ε α → List (Event I) → Program I ε α → Prop where
  | none (p : Program I ε α) : Performs p [] p
  | step (op : I.Op) (next : I.Res op → Program I ε α) (r : I.Res op) {es : List (Event I)}
      {q : Program I ε α} (h : Performs (next r) es q) :
      Performs (.call op next) (⟨op,r⟩::es) q

theorem performs_snoc {p : Program I ε α} {es : List (Event I)} {op : I.Op}
    {next : I.Res op → Program I ε α} (h : Performs p es (.call op next)) (r : I.Res op) :
    Performs p (es++[⟨op,r⟩]) (next r) := by
  generalize hq : Program.call op next = q at h
  induction h with
  | none p =>
    subst hq
    exact .step op next r (.none _)
  | step op' next' r' h ih => exact .step op' next' r' (ih hq)

theorem performs_trans {p q r : Program I ε α} {es es' : List (Event I)} (h : Performs p es q)
    (h' : Performs q es' r) : Performs p (es++es') r := by
  induction h with
  | none p => exact h'
  | step op next x h ih => exact .step op next x (ih h')

theorem performs_bind {p q : Program I ε α} {es : List (Event I)} (h : Performs p es q)
    (f : α → Program I ε β) : Performs (p >>= f) es (q >>= f) := by
  induction h with
  | none p => exact .none _
  | step op next r h ih => exact .step op _ r ih

theorem performs_attempt {p q : Program I ε α} {es : List (Event I)} (h : Performs p es q)
    (handler : ε → Program I ε α) : Performs (p.attempt handler) es (q.attempt handler) := by
  induction h with
  | none p => exact .none _
  | step op next r h ih => exact .step op _ r ih

def Contract.after (c : Contract I L) (l : L) (es : List (Event I)) : L :=
  es.foldl (fun l e => c.view l e.op e.res) l

def Contract.Relied (c : Contract I L) : L → List (Event I) → Prop
  | _, [] => True
  | l, e::es => c.rely l e.op e.res ∧ c.Relied (c.view l e.op e.res) es

theorem keeps_performs {c : Contract I L} {Q : α → L → Prop} {R : ε → L → Prop}
    {p q : Program I ε α} {es : List (Event I)} {l : L} (h : Performs p es q)
    (hk : Keeps c Q R p l) (hr : c.Relied l es) : Keeps c Q R q (c.after l es) := by
  induction h generalizing l with
  | none p => exact hk
  | step op next r h ih => exact ih (hk.2 r hr.1) hr.2

theorem relied_trivial {c : Contract I L} (h : ∀ l op r, c.rely l op r) (l : L)
    (es : List (Event I)) : c.Relied l es := by
  induction es generalizing l with
  | nil => trivial
  | cons e es ih => exact ⟨h l e.op e.res,ih _⟩

theorem keeps_now {c : Contract I L} {Q : α → L → Prop} {R : ε → L → Prop} {G : L → Prop}
    (hQ : ∀ a l, Q a l → G l) (hR : ∀ e l, R e l → G l) (hmay : ∀ l op, c.may l op → G l)
    {p : Program I ε α} {l : L} (h : Keeps c Q R p l) : G l := by
  cases p with
  | ret a => exact hQ a l h
  | fail e => exact hR e l h
  | call op next => exact hmay l op h.1

theorem keeps_free {c : Contract I L} {Q : α → L → Prop} {R : ε → L → Prop} {F : L → Prop}
    (hview : ∀ l op r, F l → F (c.view l op r)) (hmay : ∀ l op, F l → c.may l op)
    (hQ : ∀ a l, F l → Q a l) (hR : ∀ e l, F l → R e l) (p : Program I ε α) {l : L} (h : F l) :
    Keeps c Q R p l := by
  induction p generalizing l with
  | ret a => exact hQ a l h
  | fail e => exact hR e l h
  | call op next ih => exact ⟨hmay l op h,fun r _ => ih r (hview l op r h)⟩

def follow [DecidableEq I.Op] : List (Event I) → Program I ε α → Option (Program I ε α)
  | [], p => some p
  | e::es, .call op next => if h : e.op = op then follow es (next (h ▸ e.res)) else none
  | _::_, _ => none

theorem follow_performs [DecidableEq I.Op] {es : List (Event I)} {p q : Program I ε α}
    (h : follow es p = some q) : Performs p es q := by
  induction es generalizing p with
  | nil =>
    cases h
    exact .none q
  | cons e es ih =>
    cases p with
    | ret a => cases h
    | fail e => cases h
    | call op next =>
      rw [follow] at h
      split at h
      · obtain ⟨eop,eres⟩ := e
        rename_i heq
        subst heq
        exact .step eop next eres (ih h)
      · cases h

end Workshop.InteractiveProgram
