import Workshop.ThreadPool

/-!
# Linearizable calls on a shared object

A labelling finds calls of an abstract object in the trace of a pool: where a
call begins, what it puts out and where it ends. A call may use the object
several times, and one of these uses is the point at which it takes effect.
When the threads keep to that, the calls can be put in one order that agrees
with real time and in which the abstract object gives the same answers.
-/

set_option autoImplicit false

namespace Workshop.Linearization
open Workshop.InteractiveProgram Workshop.ThreadPool

structure Call (ι X O : Type) where
  thread : ι
  input : X
  output : List O
  began : ℕ
  ended : Option ℕ

section Orders
variable {ι X O S : Type}

def Precedes (a b : Call ι X O) : Prop := ∃ t, a.ended = some t ∧ t < b.began

def Agrees (c : Call ι X O) (answer : List O) : Prop :=
  c.output <+: answer ∧ (c.ended ≠ none → c.output = answer)

def Replay (spec : X → S → List O × S) : S → List (Call ι X O) → S → Prop
  | s, [], s' => s' = s
  | s, c::cs, s' => Agrees c (spec c.input s).1 ∧ Replay spec (spec c.input s).2 cs s'

/-- A sequential order of calls. Those that are not over yet may be left out. -/
structure Linearizes (spec : X → S → List O × S) (calls : List (Call ι X O)) (s s' : S)
    (order : List (Call ι X O)) : Prop where
  distinct : order.Nodup
  made : ∀ c ∈ order, c ∈ calls
  complete : ∀ c ∈ calls, c.ended ≠ none → c ∈ order
  realTime : order.Pairwise fun a b => ¬ Precedes b a
  ownOrder : order.Pairwise fun a b => a.thread = b.thread → a.began < b.began
  replay : Replay spec s order s'

end Orders

inductive Label (X O : Type) where
  | silent
  | begins (x : X)
  | emits (os : List O)
  | ends

/-- `point` tells where a call takes effect and what it answers then, and
`writes` which uses of the object can change it. -/
structure Labelling (I : Interface) (X O : Type) where
  label : (op : I.Op) → I.Res op → Label X O
  point : X → (op : I.Op) → I.Res op → Option (List O)
  writes : I.Op → Prop

variable {ι : Type} {I : Interface} {X O S ε α : Type}

def Marks (g : Call ι X O → Call ι X O) : Prop :=
  ∀ c, (g c).thread = c.thread ∧ (g c).input = c.input ∧ (g c).began = c.began

def Call.extend (os : List O) (c : Call ι X O) : Call ι X O := { c with output := c.output++os }

def Call.close (time : ℕ) (c : Call ι X O) : Call ι X O := { c with ended := some time }

theorem marks_extend (os : List O) : Marks (Call.extend os : Call ι X O → Call ι X O) :=
  fun _ => ⟨rfl,rfl,rfl⟩

theorem marks_close (time : ℕ) : Marks (Call.close time : Call ι X O → Call ι X O) :=
  fun _ => ⟨rfl,rfl,rfl⟩

section Traces
variable [DecidableEq ι]

def touch (i : ι) (g : Call ι X O → Call ι X O) (c : Call ι X O) : Call ι X O :=
  if c.thread = i ∧ c.ended = none then g c else c

section Touch
variable {g : Call ι X O → Call ι X O} (hg : Marks g) (i : ι) (c : Call ι X O)
include hg

theorem touch_thread : (touch i g c).thread = c.thread := by
  rw [touch]
  split
  · exact (hg c).1
  · rfl

theorem touch_input : (touch i g c).input = c.input := by
  rw [touch]
  split
  · exact (hg c).2.1
  · rfl

theorem touch_began : (touch i g c).began = c.began := by
  rw [touch]
  split
  · exact (hg c).2.2
  · rfl

omit hg in
theorem touch_over {t : ℕ} (ht : c.ended = some t) : touch i g c = c := by
  rw [touch, if_neg (by simp [ht])]

omit hg in
theorem touch_late {time : ℕ}
    (hend : ∀ c t, c.ended = none → (g c).ended = some t → t = time) {t : ℕ}
    (ht : (touch i g c).ended = some t) : c.ended = some t ∨ t = time := by
  rw [touch] at ht
  split at ht
  · rename_i hc
    exact .inr (hend c t hc.2 ht)
  · exact .inl ht

end Touch

def record (calls : List (Call ι X O)) (time : ℕ) (i : ι) : Label X O → List (Call ι X O)
  | .silent => calls
  | .begins x => calls++[⟨i,x,[],time,none⟩]
  | .emits os => calls.map (touch i (Call.extend os))
  | .ends => calls.map (touch i (Call.close time))

def callsOf (lab : Labelling I X O) (trace : List (ι × Event I)) : List (Call ι X O) :=
  trace.zipIdx.foldl (fun calls e => record calls e.2 e.1.1 (lab.label e.1.2.op e.1.2.res)) []

theorem callsOf_snoc (lab : Labelling I X O) (trace : List (ι × Event I)) (i : ι) (e : Event I) :
    callsOf lab (trace++[(i,e)]) =
      record (callsOf lab trace) trace.length i (lab.label e.op e.res) := by
  simp [callsOf, List.zipIdx_append]

end Traces

/-- How far the call of a thread is. After its point it owes the rest of the
answer. -/
inductive Phase (X O : Type) where
  | idle
  | pending (x : X) (out : List O)
  | done (rest : List O)
  | broken
  deriving DecidableEq

def advance [DecidableEq O] (lab : Labelling I X O) : Phase X O → (op : I.Op) → I.Res op → Phase X O
  | .idle, op, r =>
    match lab.label op r with
    | .begins x => .pending x []
    | _ => .idle
  | .pending x out, op, r =>
    match lab.point x op r, lab.label op r with
    | some answer, _ => if out <+: answer then .done (answer.drop out.length) else .broken
    | none, .silent => .pending x out
    | none, .emits os => .pending x (out++os)
    | none, _ => .broken
  | .done rest, op, r =>
    match lab.label op r with
    | .silent => .done rest
    | .emits os => if os <+: rest then .done (rest.drop os.length) else .broken
    | .ends => if rest = [] then .idle else .broken
    | .begins _ => .broken
  | .broken, _, _ => .broken

/-- The object is changed at the points of calls only. -/
def discipline [DecidableEq O] (lab : Labelling I X O) (rely : (op : I.Op) → I.Res op → Prop) :
    Contract I (Phase X O) where
  may ph op := ph ≠ .broken ∧
    (lab.writes op → ∃ x out, ph = .pending x out ∧ ∀ r, lab.point x op r ≠ none)
  rely _ op r := rely op r
  view ph op r := advance lab ph op r

structure Sound (lab : Labelling I X O) (spec : X → S → List O × S) (A : Object I S) : Prop where
  effect : ∀ x op r answer s s', lab.point x op r = some answer → A s op r s' →
    spec x s = (answer,s')
  frame : ∀ op r s s', ¬ lab.writes op → A s op r s' → s' = s
  quiet : ∀ x op r answer, lab.point x op r = some answer → lab.label op r = .silent

structure Effect (ι X O : Type) where
  call : Call ι X O
  time : ℕ
  answer : List O

def Effect.touch [DecidableEq ι] (i : ι) (g : Call ι X O → Call ι X O) (p : Effect ι X O) :
    Effect ι X O :=
  { p with call := Linearization.touch i g p.call }

def Apart (a b : Call ι X O) : Prop := a.began < b.began ∧ (a.thread = b.thread → Precedes a b)

def Phased (order : List (Effect ι X O)) (c : Call ι X O) : Phase X O → Prop
  | .idle => False
  | .pending x out => c.input = x ∧ c.output = out ∧ ∀ p ∈ order, p.call.began ≠ c.began
  | .done rest => ∃ p ∈ order, p.call = c ∧ p.answer = c.output++rest
  | .broken => False

def Answered (spec : X → S → List O × S) : S → List (X × List O) → S → Prop
  | s, [], s' => s' = s
  | s, (x,answer)::rest, s' => (spec x s).1 = answer ∧ Answered spec (spec x s).2 rest s'

def Effect.entry (p : Effect ι X O) : X × List O := (p.call.input,p.answer)

structure Ordered (spec : X → S → List O × S) (s₀ : S) (time : ℕ) (phase : ι → Phase X O)
    (calls : List (Call ι X O)) (order : List (Effect ι X O)) (s : S) : Prop where
  apart : calls.Pairwise Apart
  past : ∀ c ∈ calls, c.began < time ∧ ∀ t, c.ended = some t → t < time
  goingOn : ∀ c ∈ calls, c.ended = none → Phased order c (phase c.thread)
  waiting : ∀ i x out, phase i = .pending x out → ∃ c ∈ calls, c.thread = i ∧ c.ended = none
  finished : ∀ c ∈ calls, c.ended ≠ none → ∃ p ∈ order, p.call = c ∧ p.answer = c.output
  within : ∀ p ∈ order, p.call ∈ calls ∧ p.call.began < p.time ∧ p.time < time ∧
    ∀ t, p.call.ended = some t → p.time < t
  increasing : order.Pairwise fun p p' => p.time < p'.time
  once : (order.map fun p => p.call.began).Nodup
  answered : Answered spec s₀ (order.map Effect.entry) s

theorem pairwise_mem {β : Type} {R : β → β → Prop} {xs : List β} (h : xs.Pairwise R) {a b : β}
    (ha : a ∈ xs) (hb : b ∈ xs) : a = b ∨ R a b ∨ R b a := by
  induction h with
  | nil => cases ha
  | cons hx _ ih =>
    rcases List.mem_cons.mp ha with rfl | hat
    · rcases List.mem_cons.mp hb with rfl | hbt
      · exact .inl rfl
      · exact .inr (.inl (hx b hbt))
    · rcases List.mem_cons.mp hb with rfl | hbt
      · exact .inr (.inr (hx a hat))
      · exact ih hat hbt

theorem answered_snoc {spec : X → S → List O × S} {s₀ s s' : S} {entries : List (X × List O)}
    {x : X} {answer : List O} (h : Answered spec s₀ entries s) (hx : spec x s = (answer,s')) :
    Answered spec s₀ (entries++[(x,answer)]) s' := by
  induction entries generalizing s₀ with
  | nil =>
    rw [Answered] at h
    subst h
    simp [Answered, hx]
  | cons e entries ih => exact ⟨h.1,ih h.2⟩

theorem replay_answered {spec : X → S → List O × S} {s₀ s : S} {order : List (Effect ι X O)}
    (hagrees : ∀ p ∈ order, Agrees p.call p.answer)
    (h : Answered spec s₀ (order.map Effect.entry) s) :
    Replay spec s₀ (order.map Effect.call) s := by
  induction order generalizing s₀ with
  | nil => exact h
  | cons p order ih =>
    obtain ⟨hanswer,hrest⟩ := h
    constructor
    · rw [hanswer]
      exact hagrees p List.mem_cons_self
    · exact ih (fun p' hp' => hagrees p' (List.mem_cons_of_mem _ hp')) hrest

theorem phased_reorder {order order' : List (Effect ι X O)} {c : Call ι X O} {ph : Phase X O}
    (hdone : ∀ p ∈ order, p.call = c → ∃ p' ∈ order', p'.call = c ∧ p'.answer = p.answer)
    (hnew : ∀ p' ∈ order', p'.call.began = c.began → ∃ p ∈ order, p.call.began = c.began)
    (h : Phased order c ph) : Phased order' c ph := by
  cases ph with
  | idle => exact h
  | broken => exact h
  | done rest =>
    obtain ⟨p,hp,hcall,hanswer⟩ := h
    obtain ⟨p',hp',hcall',hanswer'⟩ := hdone p hp hcall
    exact ⟨p',hp',hcall',hanswer'.trans hanswer⟩
  | pending x out =>
    refine ⟨h.1,h.2.1,?_⟩
    intro p' hp' hbegan
    obtain ⟨p,hp,hbegan'⟩ := hnew p' hp' hbegan
    exact h.2.2 p hp hbegan'

theorem touch_apart [DecidableEq ι] {i : ι} {g : Call ι X O → Call ι X O} (hkeep : Marks g)
    {calls : List (Call ι X O)} (h : calls.Pairwise Apart) :
    (calls.map (touch i g)).Pairwise Apart := by
  rw [List.pairwise_map]
  apply h.imp
  intro a b hap
  constructor
  · rw [touch_began hkeep, touch_began hkeep]
    exact hap.1
  · intro hsame
    rw [touch_thread hkeep, touch_thread hkeep] at hsame
    obtain ⟨t,ht,hlt⟩ := hap.2 hsame
    exact ⟨t,by rw [touch_over i a ht, ht],by rw [touch_began hkeep]; exact hlt⟩

section TouchEffects
variable [DecidableEq ι] {i : ι} {g : Call ι X O → Call ι X O} (hkeep : Marks g)
  (order : List (Effect ι X O))
include hkeep

theorem touch_begins : (order.map (Effect.touch i g)).map (fun p => p.call.began) =
    order.map fun p => p.call.began := by
  rw [List.map_map]
  exact List.map_congr_left fun p _ => touch_began hkeep i p.call

theorem touch_entries : (order.map (Effect.touch i g)).map Effect.entry =
    order.map Effect.entry := by
  rw [List.map_map]
  exact List.map_congr_left fun p _ => Prod.ext (touch_input hkeep i p.call) rfl

theorem phased_untouched {c : Call ι X O} {ph : Phase X O} (hsame : touch i g c = c)
    (h : Phased order c ph) : Phased (order.map (Effect.touch i g)) c ph := by
  apply phased_reorder _ _ h
  · intro p hp hcall
    refine ⟨Effect.touch i g p,List.mem_map_of_mem hp,?_,rfl⟩
    rw [Effect.touch, hcall]
    exact hsame
  · intro p' hp' hbegan
    obtain ⟨p,hp,rfl⟩ := List.mem_map.mp hp'
    rw [Effect.touch, touch_began hkeep] at hbegan
    exact ⟨p,hp,hbegan⟩

end TouchEffects

section Steps
variable {spec : X → S → List O × S} {s₀ s s' : S} {time : ℕ} {phase : ι → Phase X O}
  {calls : List (Call ι X O)} {order : List (Effect ι X O)}

theorem ordered_nil (s : S) : Ordered spec s 0 (fun _ : ι => .idle) [] [] s := by
  constructor <;> simp [Answered]

variable (h : Ordered spec s₀ time phase calls order s)
include h

theorem current_unique {c c' : Call ι X O} (hc : c ∈ calls) (hc' : c' ∈ calls)
    (hthread : c.thread = c'.thread) (hopen : c.ended = none) (hopen' : c'.ended = none) :
    c = c' := by
  rcases pairwise_mem h.apart hc hc' with heq | hap | hap
  · exact heq
  · obtain ⟨t,ht,_⟩ := hap.2 hthread
    rw [hopen] at ht
    cases ht
  · obtain ⟨t,ht,_⟩ := hap.2 hthread.symm
    rw [hopen'] at ht
    cases ht

theorem began_unique {c c' : Call ι X O} (hc : c ∈ calls) (hc' : c' ∈ calls)
    (hbegan : c.began = c'.began) : c = c' := by
  rcases pairwise_mem h.apart hc hc' with heq | hap | hap
  · exact heq
  · have hlt := hap.1
    omega
  · have hlt := hap.1
    omega

theorem ordered_silent {phase' : ι → Phase X O} (hphase : phase' = phase) :
    Ordered spec s₀ (time+1) phase' calls order s := by
  subst hphase
  refine { h with past := ?_, within := ?_ }
  · intro c hc
    obtain ⟨hb,he⟩ := h.past c hc
    exact ⟨by omega,fun t ht => Nat.lt_succ_of_lt (he t ht)⟩
  · intro p hp
    obtain ⟨hcall,hbegan,htime,hended⟩ := h.within p hp
    exact ⟨hcall,hbegan,by omega,hended⟩

theorem ordered_begins [DecidableEq ι] {i : ι} (hi : phase i = .idle) (x : X) :
    Ordered spec s₀ (time+1) (Function.update phase i (.pending x []))
      (calls++[⟨i,x,[],time,none⟩]) order s := by
  have hclosed : ∀ c ∈ calls, c.thread = i → c.ended ≠ none := by
    intro c hc hthread hopen
    have hphased := h.goingOn c hc hopen
    rw [hthread, hi] at hphased
    exact hphased
  constructor
  · rw [List.pairwise_append]
    refine ⟨h.apart,List.pairwise_singleton _ _,?_⟩
    intro a ha b hb
    rw [List.mem_singleton.mp hb]
    constructor
    · exact (h.past a ha).1
    · intro hthread
      obtain ⟨t,ht⟩ := Option.ne_none_iff_exists'.mp (hclosed a ha hthread)
      exact ⟨t,ht,(h.past a ha).2 t ht⟩
  · intro c hc
    rcases List.mem_append.mp hc with hc | hc
    · obtain ⟨hb,he⟩ := h.past c hc
      exact ⟨by omega,fun t ht => Nat.lt_succ_of_lt (he t ht)⟩
    · rw [List.mem_singleton.mp hc]
      exact ⟨Nat.lt_succ_self _,by simp⟩
  · intro c hc hopen
    rcases List.mem_append.mp hc with hc | hc
    · rw [Function.update_of_ne (fun hthread => hclosed c hc hthread hopen)]
      exact h.goingOn c hc hopen
    · rw [List.mem_singleton.mp hc, Function.update_self]
      refine ⟨rfl,rfl,fun p hp => ?_⟩
      have hpast := (h.past p.call (h.within p hp).1).1
      exact Nat.ne_of_lt hpast
  · intro j y out hj
    by_cases hij : j = i
    · exact ⟨⟨i,x,[],time,none⟩,by simp,hij.symm,rfl⟩
    · rw [Function.update_of_ne hij] at hj
      obtain ⟨c,hc,hthread,hopen⟩ := h.waiting j y out hj
      exact ⟨c,List.mem_append_left _ hc,hthread,hopen⟩
  · intro c hc hend
    rcases List.mem_append.mp hc with hc | hc
    · exact h.finished c hc hend
    · rw [List.mem_singleton.mp hc] at hend
      exact absurd rfl hend
  · intro p hp
    obtain ⟨hcall,hbegan,htime,hended⟩ := h.within p hp
    exact ⟨List.mem_append_left _ hcall,hbegan,by omega,hended⟩
  · exact h.increasing
  · exact h.once
  · exact h.answered

theorem ordered_point [DecidableEq ι] {i : ι} {x : X} {out answer : List O} (hi : phase i = .pending x out)
    (hx : spec x s = (answer,s')) (hout : out <+: answer) :
    ∃ order', Ordered spec s₀ (time+1)
      (Function.update phase i (.done (answer.drop out.length))) calls order' s' := by
  obtain ⟨c,hc,hthread,hopen⟩ := h.waiting i x out hi
  obtain ⟨hinput,houtput,hnew⟩ : Phased order c (.pending x out) := by
    rw [← hi, ← hthread]
    exact h.goingOn c hc hopen
  refine ⟨order++[⟨c,time,answer⟩],?_⟩
  constructor
  · exact h.apart
  · exact (ordered_silent h rfl).past
  · intro c' hc' hopen'
    by_cases hij : c'.thread = i
    · have heq := current_unique h hc' hc (hij.trans hthread.symm) hopen' hopen
      rw [hij, Function.update_self]
      refine ⟨⟨c,time,answer⟩,by simp,heq.symm,?_⟩
      rw [heq, houtput]
      exact List.prefix_iff_eq_append.mp hout |>.symm
    · rw [Function.update_of_ne hij]
      apply phased_reorder _ _ (h.goingOn c' hc' hopen')
      · intro p hp hcall
        exact ⟨p,List.mem_append_left _ hp,hcall,rfl⟩
      · intro p hp hbegan
        rcases List.mem_append.mp hp with hp | hp
        · exact ⟨p,hp,hbegan⟩
        · rw [List.mem_singleton.mp hp] at hbegan
          have heq := began_unique h hc hc' hbegan
          exact absurd (heq ▸ hthread) hij
  · intro j y out' hj
    by_cases hij : j = i
    · rw [hij, Function.update_self] at hj
      cases hj
    · rw [Function.update_of_ne hij] at hj
      exact h.waiting j y out' hj
  · intro c' hc' hend
    obtain ⟨p,hp,hrest⟩ := h.finished c' hc' hend
    exact ⟨p,List.mem_append_left _ hp,hrest⟩
  · intro p hp
    rcases List.mem_append.mp hp with hp | hp
    · exact (ordered_silent h rfl).within p hp
    · rw [List.mem_singleton.mp hp]
      refine ⟨hc,(h.past c hc).1,Nat.lt_succ_self _,?_⟩
      intro t ht
      rw [hopen] at ht
      cases ht
  · rw [List.pairwise_append]
    refine ⟨h.increasing,List.pairwise_singleton _ _,?_⟩
    intro p hp p' hp'
    rw [List.mem_singleton.mp hp']
    exact (h.within p hp).2.2.1
  · rw [List.map_append, List.nodup_append]
    refine ⟨h.once,List.nodup_singleton _,?_⟩
    intro a ha b hb
    obtain ⟨p,hp,rfl⟩ := List.mem_map.mp ha
    rw [List.mem_singleton.mp hb]
    exact hnew p hp
  · rw [List.map_append]
    apply answered_snoc h.answered
    rw [hinput]
    exact hx

theorem ordered_touch [DecidableEq ι] {i : ι} {g : Call ι X O → Call ι X O} {ph : Phase X O}
    (hkeep : Marks g) (hend : ∀ c t, c.ended = none → (g c).ended = some t → t = time)
    (hopen : ∀ c ∈ calls, c.thread = i → c.ended = none → (g c).ended = none →
      Phased (order.map (Effect.touch i g)) (g c) ph)
    (hover : ∀ c ∈ calls, c.thread = i → c.ended = none → (g c).ended ≠ none →
      ∃ p ∈ order, p.call = c ∧ p.answer = (g c).output)
    (hwait : ∀ x out, ph = .pending x out →
      (∃ x out, phase i = .pending x out) ∧ ∀ c, c.ended = none → (g c).ended = none) :
    Ordered spec s₀ (time+1) (Function.update phase i ph) (calls.map (touch i g))
      (order.map (Effect.touch i g)) s := by
  have hbegan := touch_began hkeep i
  constructor
  · exact touch_apart hkeep h.apart
  · intro c' hc'
    obtain ⟨c,hc,rfl⟩ := List.mem_map.mp hc'
    obtain ⟨hb,he⟩ := h.past c hc
    rw [hbegan]
    refine ⟨by omega,fun t ht => ?_⟩
    rcases touch_late i c hend ht with ht | rfl
    · exact Nat.lt_succ_of_lt (he t ht)
    · exact Nat.lt_succ_self _
  · intro c' hc' hopen'
    obtain ⟨c,hc,rfl⟩ := List.mem_map.mp hc'
    rw [touch_thread hkeep]
    by_cases hi : c.thread = i ∧ c.ended = none
    · rw [touch, if_pos hi] at hopen' ⊢
      rw [hi.1, Function.update_self]
      exact hopen c hc hi.1 hi.2 hopen'
    · have hsame : touch i g c = c := by rw [touch, if_neg hi]
      rw [hsame] at hopen' ⊢
      rw [Function.update_of_ne fun hij => hi ⟨hij,hopen'⟩]
      exact phased_untouched hkeep order hsame (h.goingOn c hc hopen')
  · intro j y out hj
    have hcurrent : ∃ y out, phase j = .pending y out := by
      by_cases hij : j = i
      · rw [hij, Function.update_self] at hj
        rw [hij]
        exact (hwait y out hj).1
      · rw [Function.update_of_ne hij] at hj
        exact ⟨y,out,hj⟩
    obtain ⟨y',out',hj'⟩ := hcurrent
    obtain ⟨c,hc,hthread',hopen'⟩ := h.waiting j y' out' hj'
    refine ⟨touch i g c,List.mem_map_of_mem hc,(touch_thread hkeep i c).trans hthread',?_⟩
    rw [touch]
    split
    · rename_i hi
      rw [← hthread', hi.1, Function.update_self] at hj
      exact (hwait y out hj).2 c hopen'
    · exact hopen'
  · intro c' hc' hend'
    obtain ⟨c,hc,rfl⟩ := List.mem_map.mp hc'
    have hdone : ∃ p ∈ order, p.call = c ∧ p.answer = (touch i g c).output := by
      by_cases hi : c.thread = i ∧ c.ended = none
      · rw [touch, if_pos hi] at hend' ⊢
        exact hover c hc hi.1 hi.2 hend'
      · rw [touch, if_neg hi] at hend' ⊢
        exact h.finished c hc hend'
    obtain ⟨p,hp,hcall,hanswer⟩ := hdone
    refine ⟨Effect.touch i g p,List.mem_map_of_mem hp,?_,hanswer⟩
    rw [Effect.touch, hcall]
  · intro p' hp'
    obtain ⟨p,hp,rfl⟩ := List.mem_map.mp hp'
    obtain ⟨hcall,hb,htime,hended⟩ := h.within p hp
    refine ⟨List.mem_map_of_mem hcall,by rw [Effect.touch, hbegan]; exact hb,?_,?_⟩
    · exact Nat.lt_succ_of_lt htime
    · intro t ht
      rcases touch_late i p.call hend ht with ht | rfl
      · exact hended t ht
      · exact htime
  · rw [List.pairwise_map]
    exact h.increasing
  · rw [touch_begins hkeep]
    exact h.once
  · rw [touch_entries hkeep]
    exact h.answered

theorem touch_idle [DecidableEq ι] {i : ι} (hi : phase i = .idle)
    (g : Call ι X O → Call ι X O) : calls.map (touch i g) = calls := by
  have hsame : ∀ c ∈ calls, touch i g c = c := by
    intro c hc
    apply if_neg
    rintro ⟨rfl,hopen⟩
    have hphased := h.goingOn c hc hopen
    rw [hi] at hphased
    exact hphased
  rw [List.map_congr_left hsame, List.map_id']

theorem ordered_emits_pending [DecidableEq ι] {i : ι} {x : X} {out : List O}
    (hi : phase i = .pending x out) (os : List O) :
    Ordered spec s₀ (time+1) (Function.update phase i (.pending x (out++os)))
      (calls.map (touch i (Call.extend os))) (order.map (Effect.touch i (Call.extend os))) s := by
  apply ordered_touch h
  · exact marks_extend os
  · intro c t hopen ht
    rw [Call.extend, hopen] at ht
    cases ht
  · intro c hc hthread hopen _
    have hphased := h.goingOn c hc hopen
    rw [hthread, hi] at hphased
    obtain ⟨hinput,hout,hnew⟩ := hphased
    refine ⟨hinput,by rw [Call.extend, hout],fun p' hp' => ?_⟩
    obtain ⟨p,hp,rfl⟩ := List.mem_map.mp hp'
    dsimp only [Effect.touch]
    rw [touch_began (marks_extend os)]
    exact hnew p hp
  · intro c _ _ hopen hover
    exact absurd hopen hover
  · intro y out' _
    exact ⟨⟨x,out,hi⟩,fun c hopen => hopen⟩

theorem ordered_emits_done [DecidableEq ι] {i : ι} {rest os : List O}
    (hi : phase i = .done rest) (hos : os <+: rest) :
    Ordered spec s₀ (time+1) (Function.update phase i (.done (rest.drop os.length)))
      (calls.map (touch i (Call.extend os))) (order.map (Effect.touch i (Call.extend os))) s := by
  apply ordered_touch h
  · exact marks_extend os
  · intro c t hopen ht
    rw [Call.extend, hopen] at ht
    cases ht
  · intro c hc hthread hopen _
    have hphased := h.goingOn c hc hopen
    rw [hthread, hi] at hphased
    obtain ⟨p,hp,hcall,hanswer⟩ := hphased
    refine ⟨_,List.mem_map_of_mem hp,?_,?_⟩
    · rw [Effect.touch, hcall, touch, if_pos ⟨hthread,hopen⟩]
    · rw [Effect.touch, hanswer, Call.extend, List.append_assoc,
        List.prefix_iff_eq_append.mp hos]
  · intro c _ _ hopen hover
    exact absurd hopen hover
  · intro y out' hph
    cases hph

theorem ordered_ends [DecidableEq ι] {i : ι} (hi : phase i = .done []) :
    Ordered spec s₀ (time+1) (Function.update phase i .idle)
      (calls.map (touch i (Call.close time))) (order.map (Effect.touch i (Call.close time))) s := by
  apply ordered_touch h
  · exact marks_close time
  · intro c t _ ht
    exact (Option.some.inj ht).symm
  · intro c _ _ _ hopen
    cases hopen
  · intro c hc hthread hopen _
    have hphased := h.goingOn c hc hopen
    rw [hthread, hi] at hphased
    obtain ⟨p,hp,hcall,hanswer⟩ := hphased
    rw [List.append_nil] at hanswer
    exact ⟨p,hp,hcall,hanswer⟩
  · intro y out' hph
    cases hph

section Advances
variable [DecidableEq ι] [DecidableEq O] {lab : Labelling I X O} {i : ι} {op : I.Op} {r : I.Res op}

theorem ordered_idle (hi : phase i = .idle) :
    ∃ order', Ordered spec s₀ (time+1) (Function.update phase i (advance lab .idle op r))
      (record calls time i (lab.label op r)) order' s := by
  have hstay : Function.update phase i .idle = phase := by rw [← hi, Function.update_eq_self]
  rw [advance]
  cases lab.label op r with
  | begins x => exact ⟨order,ordered_begins h hi x⟩
  | silent => exact ⟨order,ordered_silent h hstay⟩
  | emits os =>
    dsimp only [record]
    rw [touch_idle h hi]
    exact ⟨order,ordered_silent h hstay⟩
  | ends =>
    dsimp only [record]
    rw [touch_idle h hi]
    exact ⟨order,ordered_silent h hstay⟩

theorem ordered_pending {x : X} {out : List O} (hi : phase i = .pending x out)
    (hpoint : lab.point x op r = none) (hkept : advance lab (.pending x out) op r ≠ .broken) :
    ∃ order', Ordered spec s₀ (time+1)
      (Function.update phase i (advance lab (.pending x out) op r))
      (record calls time i (lab.label op r)) order' s := by
  rw [advance, hpoint] at hkept
  rw [advance, hpoint]
  cases hl : lab.label op r with
  | silent => exact ⟨order,ordered_silent h (by rw [← hi, Function.update_eq_self])⟩
  | emits os => exact ⟨_,ordered_emits_pending h hi os⟩
  | begins y =>
    rw [hl] at hkept
    exact absurd rfl hkept
  | ends =>
    rw [hl] at hkept
    exact absurd rfl hkept

theorem ordered_done {rest : List O} (hi : phase i = .done rest)
    (hkept : advance lab (.done rest) op r ≠ .broken) :
    ∃ order', Ordered spec s₀ (time+1) (Function.update phase i (advance lab (.done rest) op r))
      (record calls time i (lab.label op r)) order' s := by
  rw [advance] at hkept
  rw [advance]
  cases hl : lab.label op r with
  | begins x =>
    rw [hl] at hkept
    exact absurd rfl hkept
  | silent => exact ⟨order,ordered_silent h (by rw [← hi, Function.update_eq_self])⟩
  | emits os =>
    rw [hl] at hkept
    dsimp only at hkept ⊢
    split at hkept
    · rename_i hos
      rw [if_pos hos]
      exact ⟨_,ordered_emits_done h hi hos⟩
    · exact absurd rfl hkept
  | ends =>
    rw [hl] at hkept
    dsimp only at hkept ⊢
    split at hkept
    · rename_i hrest
      rw [if_pos hrest]
      exact ⟨_,ordered_ends h (hrest ▸ hi)⟩
    · exact absurd rfl hkept

/-- One use of the object, by any thread that keeps to the discipline. -/
theorem ordered_step {A : Object I S} (hsound : Sound lab spec A)
    (hkept : advance lab (phase i) op r ≠ .broken)
    (hwrites : lab.writes op → ∃ x out, phase i = .pending x out ∧ ∀ r, lab.point x op r ≠ none)
    (ha : A s op r s') :
    ∃ order', Ordered spec s₀ (time+1) (Function.update phase i (advance lab (phase i) op r))
      (record calls time i (lab.label op r)) order' s' := by
  -- only the point of a call can change the object
  have hframe : (∀ x out, phase i = .pending x out → lab.point x op r = none) → s' = s := by
    intro hnone
    apply hsound.frame op r s s' _ ha
    intro hw
    obtain ⟨x,out,hpend,hall⟩ := hwrites hw
    exact hall r (hnone x out hpend)
  cases hi : phase i with
  | broken =>
    rw [hi] at hkept
    exact absurd rfl hkept
  | idle =>
    rw [hframe (by simp [hi])]
    exact ordered_idle h hi
  | done rest =>
    rw [hframe (by simp [hi])]
    exact ordered_done h hi (hi ▸ hkept)
  | pending x out =>
    rw [hi] at hkept
    cases hpoint : lab.point x op r with
    | none =>
      rw [hframe (by simp [hi, hpoint])]
      exact ordered_pending h hi hpoint hkept
    | some answer =>
      rw [advance, hpoint] at hkept
      rw [advance, hpoint]
      dsimp only at hkept ⊢
      split at hkept
      · rename_i hout
        rw [if_pos hout, hsound.quiet x op r answer hpoint]
        exact ordered_point h hi (hsound.effect x op r answer s s' hpoint ha) hout
      · exact absurd rfl hkept

end Advances

theorem effect_agrees : ∀ p ∈ order, Agrees p.call p.answer := by
  intro p hp
  have hcall := (h.within p hp).1
  have hsame : ∀ p' ∈ order, p'.call = p.call → p' = p := by
    intro p' hp' heq
    exact List.inj_on_of_nodup_map h.once hp' hp (congrArg Call.began heq)
  cases hend : p.call.ended with
  | some t =>
    obtain ⟨p',hp',heq,hanswer⟩ := h.finished p.call hcall (by simp [hend])
    rw [hsame p' hp' heq] at hanswer
    rw [hanswer]
    exact ⟨List.prefix_refl _,fun _ => rfl⟩
  | none =>
    have hphased := h.goingOn p.call hcall hend
    cases hph : phase p.call.thread with
    | idle =>
      rw [hph] at hphased
      exact hphased.elim
    | broken =>
      rw [hph] at hphased
      exact hphased.elim
    | pending x out =>
      rw [hph] at hphased
      exact absurd rfl (hphased.2.2 p hp)
    | done rest =>
      rw [hph] at hphased
      obtain ⟨p',hp',heq,hanswer⟩ := hphased
      rw [hsame p' hp' heq] at hanswer
      rw [hanswer]
      exact ⟨List.prefix_append _ _,fun hne => absurd hend hne⟩

theorem ordered_linearizes : Linearizes spec calls s₀ s (order.map Effect.call) := by
  have htimes : (order.map Effect.call).Pairwise fun a b => ¬ Precedes b a := by
    rw [List.pairwise_map]
    apply h.increasing.imp_of_mem
    rintro p p' hp hp' hlt ⟨t,ht,hbegan⟩
    have hend := (h.within p' hp').2.2.2 t ht
    have hbegin := (h.within p hp).2.1
    omega
  have hdistinct : (order.map Effect.call).Nodup := by
    apply List.Nodup.of_map Call.began
    rw [List.map_map]
    exact h.once
  have hmade : ∀ c ∈ order.map Effect.call, c ∈ calls := by
    intro c hc
    obtain ⟨p,hp,rfl⟩ := List.mem_map.mp hc
    exact (h.within p hp).1
  constructor
  · exact hdistinct
  · exact hmade
  · intro c hc hend
    obtain ⟨p,hp,rfl,_⟩ := h.finished c hc hend
    exact List.mem_map_of_mem hp
  · exact htimes
  · apply (htimes.and hdistinct).imp_of_mem
    intro a b ha hb hab hthread
    rcases pairwise_mem h.apart (hmade a ha) (hmade b hb) with heq | hap | hap
    · exact absurd heq hab.2
    · exact hap.1
    · exact absurd (hap.2 hthread.symm) hab.1
  · exact replay_answered (effect_agrees h) h.answered

end Steps

/-- The calls of threads that keep to the discipline can be put in order. -/
theorem linearizable [DecidableEq ι] [DecidableEq O] {lab : Labelling I X O} {A : Object I S}
    {spec : X → S → List O × S} (hsound : Sound lab spec A)
    {rely : (op : I.Op) → I.Res op → Prop} (hrely : ∀ s op r s', A s op r s' → rely op r) {s : S}
    {thread : ι → Program I ε α}
    (hthread : ∀ i, Keeps (discipline lab rely) (fun _ ph => ph ≠ Phase.broken)
      (fun _ ph => ph ≠ Phase.broken) (thread i) .idle)
    {q : Pool ι I ε α S} (h : Reaches A (initial s thread) q) :
    ∃ order, Linearizes spec (callsOf lab q.trace) s q.shared order := by
  have hupholds : Upholds A (discipline lab rely) fun _ => True :=
    fun s op r s' _ _ _ ha => ⟨trivial,hrely s op r s' ha⟩
  have hkeeps : ∀ {q}, Reaches A (initial s thread) q → ∀ i,
      Keeps (discipline lab rely) (fun _ ph => ph ≠ Phase.broken) (fun _ ph => ph ≠ Phase.broken)
        (q.thread i) ((discipline lab rely).after .idle (own i q.trace)) :=
    fun h => (reaches_keeps hupholds hthread trivial h).2
  have hordered : ∃ order, Ordered spec s q.trace.length
      (fun i => (discipline lab rely).after .idle (own i q.trace)) (callsOf lab q.trace) order
      q.shared := by
    induction h with
    | start => exact ⟨[],ordered_nil s⟩
    | step h i hs ih =>
      obtain ⟨order,hordered⟩ := ih
      have hafter := hkeeps (.step h i hs) i
      obtain ⟨op,next,r,hcall,ha,_,htrace⟩ := hs
      have hnow := hkeeps h i
      rw [hcall] at hnow
      have hkept := keeps_now (c := discipline lab rely) (G := fun ph => ph ≠ Phase.broken)
        (fun _ _ h => h) (fun _ _ h => h) (fun _ _ h => h.1) hafter
      rw [htrace, own_snoc, after_snoc] at hkept
      obtain ⟨order',hstep⟩ := ordered_step hordered hsound hkept hnow.1.2 ha
      refine ⟨order',?_⟩
      rw [htrace, callsOf_snoc, List.length_append, List.length_singleton]
      convert hstep using 1
      funext j
      by_cases hij : i = j
      · subst hij
        rw [own_snoc, after_snoc, Function.update_self]
        rfl
      · rw [own_other hij, Function.update_of_ne (Ne.symm hij)]
  obtain ⟨order,hordered⟩ := hordered
  exact ⟨_,ordered_linearizes hordered⟩

end Workshop.Linearization
