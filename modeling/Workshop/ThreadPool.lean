import Workshop.InteractiveProgram

/-!
# Threads over a shared object

Any number of programs make their calls on one object, one call at a time and
in any order. A pool keeps the calls made so far. What a thread does depends
on its own calls only, and an invariant of the object holds when every thread
keeps a contract that upholds it.
-/

set_option autoImplicit false

namespace Workshop.ThreadPool
open Workshop.InteractiveProgram

abbrev Object (I : Interface) (S : Type) := S → (op : I.Op) → I.Res op → S → Prop

structure Pool (ι : Type) (I : Interface) (ε α S : Type) where
  shared : S
  thread : ι → Program I ε α
  trace : List (ι × Event I)

variable {ι : Type} [DecidableEq ι] {I : Interface} {ε α S L : Type}

def initial (s : S) (thread : ι → Program I ε α) : Pool ι I ε α S := ⟨s,thread,[]⟩

def StepOf (A : Object I S) (i : ι) (p q : Pool ι I ε α S) : Prop :=
  ∃ op next r, p.thread i = .call op next ∧ A p.shared op r q.shared ∧
    q.thread = Function.update p.thread i (next r) ∧ q.trace = p.trace++[(i,⟨op,r⟩)]

inductive Reaches (A : Object I S) (p : Pool ι I ε α S) : Pool ι I ε α S → Prop where
  | start : Reaches A p p
  | step {q q' : Pool ι I ε α S} (h : Reaches A p q) (i : ι) (hs : StepOf A i q q') :
      Reaches A p q'

def own (i : ι) (trace : List (ι × Event I)) : List (Event I) :=
  trace.filterMap fun e => if e.1 = i then some e.2 else none

theorem own_snoc (i : ι) (trace : List (ι × Event I)) (e : Event I) :
    own i (trace++[(i,e)]) = own i trace++[e] := by
  simp [own]

theorem own_other {i j : ι} (h : j ≠ i) (trace : List (ι × Event I)) (e : Event I) :
    own i (trace++[(j,e)]) = own i trace := by
  simp [own, h]

variable {A : Object I S}

theorem reaches_performs {s : S} {thread : ι → Program I ε α} {q : Pool ι I ε α S}
    (h : Reaches A (initial s thread) q) (i : ι) :
    Performs (thread i) (own i q.trace) (q.thread i) := by
  induction h with
  | start => exact .none _
  | step h j hs ih =>
    obtain ⟨op,next,r,hj,_,hthread,htrace⟩ := hs
    rw [hthread, htrace]
    by_cases hij : j = i
    · subst hij
      rw [own_snoc, Function.update_self]
      rw [hj] at ih
      exact performs_snoc ih r
    · rw [own_other hij, Function.update_of_ne (Ne.symm hij)]
      exact ih

/-- Calls within the contract keep the invariant and get the answers relied on. -/
def Upholds (A : Object I S) (c : Contract I L) (inv : S → Prop) : Prop :=
  ∀ s op r s' l, inv s → c.may l op → A s op r s' → inv s' ∧ c.rely l op r

theorem after_snoc (c : Contract I L) (l : L) (es : List (Event I)) (e : Event I) :
    c.after l (es++[e]) = c.view (c.after l es) e.op e.res := by
  simp [Contract.after]

/-- The rule for invariants: each thread may assume what the others uphold. -/
theorem reaches_keeps {c : Contract I L} {inv : S → Prop} {Q : α → L → Prop} {R : ε → L → Prop}
    (hA : Upholds A c inv) {s : S} {thread : ι → Program I ε α} {l : ι → L}
    (hthread : ∀ i, Keeps c Q R (thread i) (l i)) (hs : inv s) {q : Pool ι I ε α S}
    (h : Reaches A (initial s thread) q) :
    inv q.shared ∧ ∀ i, Keeps c Q R (q.thread i) (c.after (l i) (own i q.trace)) := by
  induction h with
  | start => exact ⟨hs,hthread⟩
  | step h j hstep ih =>
    obtain ⟨op,next,r,hj,hans,hupdate,htrace⟩ := hstep
    obtain ⟨hinv,hkeeps⟩ := ih
    have hcall := hkeeps j
    rw [hj] at hcall
    obtain ⟨hinv',hrely⟩ := hA _ op r _ _ hinv hcall.1 hans
    refine ⟨hinv',fun i => ?_⟩
    rw [hupdate, htrace]
    by_cases hij : j = i
    · subst hij
      rw [own_snoc, Function.update_self, after_snoc]
      exact hcall.2 r hrely
    · rw [own_other hij, Function.update_of_ne (Ne.symm hij)]
      exact hkeeps i

inductive Replays (A : Object I S) : S → List (Event I) → S → Prop where
  | none (s : S) : Replays A s [] s
  | step {s s' t : S} (op : I.Op) (r : I.Res op) {es : List (Event I)} (ha : A s op r s')
      (h : Replays A s' es t) : Replays A s (⟨op,r⟩::es) t

theorem replays_restrict {P : I.Op → Prop} {s t : S} {es : List (Event I)}
    (h : Replays A s es t) (hP : ∀ e ∈ es, P e.op) :
    Replays (fun s op r s' => A s op r s' ∧ P op) s es t := by
  induction h with
  | none s => exact .none s
  | step op r ha h ih =>
    have hrest := ih fun e he => hP e (List.mem_cons_of_mem _ he)
    exact .step op r ⟨ha,hP ⟨op,r⟩ List.mem_cons_self⟩ hrest

theorem reaches_alone {p q : Pool ι I ε α S} (h : Reaches A p q) (i : ι) {es : List (Event I)}
    {x : Program I ε α} {s : S} (hp : Performs (q.thread i) es x) (hs : Replays A q.shared es s) :
    Reaches A p ⟨s,Function.update q.thread i x,q.trace++es.map (i,·)⟩ := by
  generalize ht : q.thread i = y at hp
  induction hp generalizing q with
  | none y =>
    cases hs
    rw [← ht, Function.update_eq_self]
    simpa using h
  | step op next r hp ih =>
    cases hs with
    | step _ _ ha hs =>
      have hstep : StepOf A i q ⟨_,Function.update q.thread i (next r),q.trace++[(i,⟨op,r⟩)]⟩ :=
        ⟨op,next,r,ht,ha,rfl,rfl⟩
      have hrest := ih (.step h i hstep) hs (Function.update_self ..)
      simpa using hrest

end Workshop.ThreadPool
