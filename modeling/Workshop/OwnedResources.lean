import Workshop.InteractiveProgram

/-!
# Resources that are handed out and taken back

Some calls hand out a resource, some work on one, and some take one back. A
program is in order when it calls only on what it holds. What it holds does
not interfere with the resources of others, so a part of a program is judged
with its own resources alone.
-/

set_option autoImplicit false

namespace Workshop.OwnedResources
open Workshop.InteractiveProgram

variable {I J : Interface} {ε α β ρ L M : Type}

theorem performs_call {op : I.Op} {next : I.Res op → Program I ε α} {es : List (Event I)} {a : α}
    (h : Performs (.call op next) es (.ret a)) :
    ∃ r rest, es = ⟨op,r⟩::rest ∧ Performs (next r) rest (.ret a) := by
  cases h with
  | step _ _ r h => exact ⟨r,_,rfl,h⟩

theorem performs_ret {a b : α} {es : List (Event I)}
    (h : Performs (.ret a : Program I ε α) es (.ret b)) : es = [] ∧ a = b := by
  cases h
  exact ⟨rfl,rfl⟩

theorem performs_fail {e : ε} {b : α} {es : List (Event I)} :
    ¬ Performs (.fail e : Program I ε α) es (.ret b) := by
  intro h
  cases h

theorem performs_split {p : Program I ε α} {f : α → Program I ε β} {es : List (Event I)} {b : β}
    (h : Performs (p >>= f) es (.ret b)) :
    ∃ a first rest, es = first++rest ∧ Performs p first (.ret a) ∧ Performs (f a) rest (.ret b) := by
  induction p generalizing es with
  | ret a => exact ⟨a,[],es,rfl,.none _,h⟩
  | fail e => exact absurd h performs_fail
  | call op next ih =>
    obtain ⟨r,more,rfl,hmore⟩ := performs_call h
    obtain ⟨a,first,rest,rfl,hp,hf⟩ := ih r hmore
    exact ⟨a,_,rest,rfl,.step op next r hp,hf⟩

def Allowed (c : Contract I L) : L → List (Event I) → Prop
  | _, [] => True
  | l, e::es => c.may l e.op ∧ Allowed c (c.view l e.op e.res) es

section Contracts
variable {c : Contract I L} {Q : α → L → Prop} {R : ε → L → Prop}

theorem allowed_append (c : Contract I L) (l : L) (es es' : List (Event I)) :
    Allowed c l (es++es') ↔ Allowed c l es ∧ Allowed c (c.after l es) es' := by
  induction es generalizing l with
  | nil => simp [Allowed, Contract.after]
  | cons e es ih => simp [Allowed, Contract.after, ih, and_assoc]

theorem relied_append (c : Contract I L) (l : L) (es es' : List (Event I)) :
    c.Relied l (es++es') ↔ c.Relied l es ∧ c.Relied (c.after l es) es' := by
  induction es generalizing l with
  | nil => simp [Contract.Relied, Contract.after]
  | cons e es ih => simp [Contract.Relied, Contract.after, ih, and_assoc]

theorem after_append (c : Contract I L) (l : L) (es es' : List (Event I)) :
    c.after l (es++es') = c.after (c.after l es) es' := List.foldl_append

theorem keeps_allowed {p q : Program I ε α} {es : List (Event I)} {l : L} (h : Performs p es q)
    (hk : Keeps c Q R p l) (hr : c.Relied l es) : Allowed c l es := by
  induction h generalizing l with
  | none p => trivial
  | step op next r h ih => exact ⟨hk.1,ih (hk.2 r hr.1) hr.2⟩

theorem keeps_returns {p : Program I ε α} {es : List (Event I)} {l : L} {a : α}
    (h : Performs p es (.ret a)) (hk : Keeps c Q R p l) (hr : c.Relied l es) :
    Allowed c l es ∧ Q a (c.after l es) :=
  ⟨keeps_allowed h hk hr,keeps_performs h hk hr⟩

theorem keeps_interp {c' : Contract J M} {f : (op : I.Op) → Program J ε (I.Res op)}
    (sim : L → M → Prop) {p : Program I ε α} {l : L} {m : M}
    (hf : ∀ l m op, sim l m → c.may l op →
      Keeps c' (fun r m' => c.rely l op r ∧ sim (c.view l op r) m')
        (fun e m' => ∃ l', sim l' m' ∧ R e l') (f op) m)
    (hp : Keeps c Q R p l) (hs : sim l m) :
    Keeps c' (fun a m' => ∃ l', sim l' m' ∧ Q a l') (fun e m' => ∃ l', sim l' m' ∧ R e l')
      (p.interp f) m := by
  induction p generalizing l m with
  | ret a => exact ⟨l,hs,hp⟩
  | fail e => exact ⟨l,hs,hp⟩
  | call op next ih =>
    apply keeps_bind
    apply keeps_mono _ (fun _ _ h => h) (hf l m op hs hp.1)
    rintro r m' ⟨hrely,hsim⟩
    exact ih r (hp.2 r hrely) hsim

end Contracts

structure Discipline (I : Interface) (ρ : Type) where
  uses : I.Op → Finset ρ
  takes : I.Op → Finset ρ
  hands : (op : I.Op) → I.Res op → Finset ρ
  promises : (op : I.Op) → I.Res op → Prop

variable [DecidableEq ρ]

/-- Calls are made on resources that are held, and what they hand out is new. -/
def Discipline.contract (d : Discipline I ρ) : Contract I (Finset ρ) where
  may l op := d.uses op ⊆ l ∧ d.takes op ⊆ l
  rely l op r := Disjoint (d.hands op r) l ∧ d.promises op r
  view l op r := l \ d.takes op ∪ d.hands op r

variable {d : Discipline I ρ} {Q : α → Finset ρ → Prop} {R : ε → Finset ρ → Prop}

@[simp] theorem allowed_nil (c : Contract I L) (l : L) : Allowed c l [] := trivial

@[simp] theorem after_nil (c : Contract I L) (l : L) : c.after l [] = l := rfl

theorem allowed_cons (d : Discipline I ρ) (l : Finset ρ) (e : Event I) (es : List (Event I)) :
    Allowed d.contract l (e::es) ↔ (d.uses e.op ⊆ l ∧ d.takes e.op ⊆ l) ∧
      Allowed d.contract (l \ d.takes e.op ∪ d.hands e.op e.res) es := Iff.rfl

theorem after_cons (d : Discipline I ρ) (l : Finset ρ) (e : Event I) (es : List (Event I)) :
    d.contract.after l (e::es) =
      d.contract.after (l \ d.takes e.op ∪ d.hands e.op e.res) es := rfl

theorem keeps_use {op : I.Op} {next : I.Res op → Program I ε α} {l : Finset ρ}
    (huses : d.uses op ⊆ l) (htakes : d.takes op = ∅) (hhands : ∀ r, d.hands op r = ∅)
    (h : ∀ r, d.promises op r → Keeps d.contract Q R (next r) l) :
    Keeps d.contract Q R (.call op next) l := by
  refine ⟨⟨huses,htakes ▸ Finset.empty_subset _⟩,fun r hr => ?_⟩
  show Keeps d.contract Q R (next r) (l \ d.takes op ∪ d.hands op r)
  rw [htakes, hhands, Finset.sdiff_empty, Finset.union_empty]
  exact h r hr.2

theorem keeps_release {op : I.Op} {next : I.Res op → Program I ε α} {l : Finset ρ}
    (huses : d.uses op ⊆ l) (htakes : d.takes op ⊆ l) (hhands : ∀ r, d.hands op r = ∅)
    (h : ∀ r, d.promises op r → Keeps d.contract Q R (next r) (l \ d.takes op)) :
    Keeps d.contract Q R (.call op next) l := by
  refine ⟨⟨huses,htakes⟩,fun r hr => ?_⟩
  show Keeps d.contract Q R (next r) (l \ d.takes op ∪ d.hands op r)
  rw [hhands, Finset.union_empty]
  exact h r hr.2

/-- Resources of others make no difference, and none is made to them. -/
theorem keeps_frame {p : Program I ε α} {l f : Finset ρ} (h : Keeps d.contract Q R p l)
    (hf : Disjoint l f) :
    Keeps d.contract (fun a l' => ∃ own, l' = own ∪ f ∧ Disjoint own f ∧ Q a own)
      (fun e l' => ∃ own, l' = own ∪ f ∧ Disjoint own f ∧ R e own) p (l ∪ f) := by
  induction p generalizing l with
  | ret a => exact ⟨l,rfl,hf,h⟩
  | fail e => exact ⟨l,rfl,hf,h⟩
  | call op next ih =>
    obtain ⟨⟨huses,htakes⟩,hnext⟩ := h
    refine ⟨⟨huses.trans Finset.subset_union_left,htakes.trans Finset.subset_union_left⟩,?_⟩
    rintro r ⟨hnew,hpromise⟩
    obtain ⟨hown,hother⟩ := Finset.disjoint_union_right.mp hnew
    have hsplit : d.contract.view (l ∪ f) op r = d.contract.view l op r ∪ f := by
      have hkept : f \ d.takes op = f :=
        Finset.sdiff_eq_self_of_disjoint (hf.mono_left htakes).symm
      show (l ∪ f) \ d.takes op ∪ d.hands op r = l \ d.takes op ∪ d.hands op r ∪ f
      rw [Finset.union_sdiff_distrib, hkept, Finset.union_right_comm]
    rw [hsplit]
    apply ih r (hnext r ⟨hown,hpromise⟩)
    exact Finset.disjoint_union_left.mpr ⟨hf.mono_left Finset.sdiff_subset,hother⟩

def handed (d : Discipline I ρ) (x : ρ) (es : List (Event I)) : ℕ :=
  es.countP fun e => x ∈ d.hands e.op e.res

def taken (d : Discipline I ρ) (x : ρ) (es : List (Event I)) : ℕ :=
  es.countP fun e => x ∈ d.takes e.op

/-- In an orderly run a resource is taken back just as often as it was handed
out, but for the one that is held. -/
theorem handed_taken (d : Discipline I ρ) (x : ρ) {l : Finset ρ} {es : List (Event I)}
    (h : Allowed d.contract l es) (hr : d.contract.Relied l es) :
    (if x ∈ l then 1 else 0)+handed d x es =
      taken d x es+(if x ∈ d.contract.after l es then 1 else 0) := by
  induction es generalizing l with
  | nil =>
    simp only [handed, taken, List.countP_nil, Nat.add_zero, Nat.zero_add]
    rfl
  | cons e es ih =>
    obtain ⟨⟨-,htakes⟩,h⟩ := h
    obtain ⟨⟨hnew,-⟩,hr⟩ := hr
    have hrest := ih h hr
    have hafter : d.contract.after l (e::es) =
        d.contract.after (d.contract.view l e.op e.res) es := rfl
    have hview : x ∈ d.contract.view l e.op e.res ↔
        (x ∈ l ∧ x ∉ d.takes e.op) ∨ x ∈ d.hands e.op e.res := by
      show x ∈ l \ d.takes e.op ∪ d.hands e.op e.res ↔ _
      rw [Finset.mem_union, Finset.mem_sdiff]
    rw [hafter, handed, taken, List.countP_cons, List.countP_cons]
    rw [handed, taken] at hrest
    by_cases hl : x ∈ l
    · have hn : x ∉ d.hands e.op e.res := fun hn => Finset.disjoint_left.mp hnew hn hl
      by_cases ht : x ∈ d.takes e.op <;> simp [hview, hl, hn, ht] at hrest ⊢ <;> omega
    · have ht : x ∉ d.takes e.op := fun ht => hl (htakes ht)
      by_cases hn : x ∈ d.hands e.op e.res <;> simp [hview, hl, hn, ht] at hrest ⊢ <;> omega

/-- What a run has handed out it has taken back, but for some. -/
def Leaves (d : Discipline I ρ) (kept : Finset ρ) (es : List (Event I)) : Prop :=
  ∀ x, handed d x es = taken d x es+if x ∈ kept then 1 else 0

theorem leaves_after {kept : Finset ρ} {es : List (Event I)} (h : Allowed d.contract ∅ es)
    (hr : d.contract.Relied ∅ es) (hafter : d.contract.after ∅ es = kept) : Leaves d kept es := by
  intro x
  have hx := handed_taken d x h hr
  rw [hafter, if_neg (Finset.notMem_empty x), Nat.zero_add] at hx
  exact hx

end Workshop.OwnedResources
