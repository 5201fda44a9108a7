import Workshop.RunAhead

/-!
# One end of an open connection

The peer sends any bytes at any time. All that is asked of it is to keep the
connection open and to read on, or the buffers between the two to have room, so
that a send does not block. The end receives words, none of which is the start
of another one, and answers each word before it receives the next. What it does
depends on the bytes alone, not on when they come and how the transfers are cut.
Before a peer that reads no more, its run is one that stops inside a send.
-/

set_option autoImplicit false

namespace Workshop.OpenConnection
open Workshop.CMemory Workshop.InteractiveProgram Workshop.ByteChannel Workshop.HalfDuplex
open Workshop.RunAhead

/-- The words an end receives. What no word starts is the start of one, at
least below some length. -/
structure Code (bound : ℕ) where
  word : Text → Prop
  nonempty : ∀ c, word c → c ≠ []
  free : ∀ c c', word c → word c' → c <+: c' → c = c'
  complete : ∀ t, t.length < bound → (∃ c, word c ∧ c <+: t) ∨ ∃ d, word (t++d)

structure Cut {bound : ℕ} (C : Code bound) (stream : Text) (cs : List Text) (rest : Text) : Prop where
  words : ∀ c ∈ cs, C.word c
  join : cs.flatten++rest = stream
  unfinished : ∀ c, C.word c → ¬ c <+: rest

theorem words_initial {bound : ℕ} {C : Code bound} {stream rest more : Text} {cs ds : List Text}
    (hcut : Cut C stream cs rest) (hds : ∀ d ∈ ds, C.word d) (h : ds.flatten++more = stream) :
    ds <+: cs := by
  induction ds generalizing stream cs with
  | nil => exact List.nil_prefix
  | cons d ds ih =>
    obtain ⟨hd,hds⟩ := List.forall_mem_cons.mp hds
    rw [List.flatten_cons, List.append_assoc] at h
    have hstart : d <+: stream := ⟨_,h⟩
    cases cs with
    | nil =>
      have hrest : rest = stream := hcut.join
      exact absurd (hrest ▸ hstart) (hcut.unfinished d hd)
    | cons c cs =>
      obtain ⟨hc,hcs⟩ := List.forall_mem_cons.mp hcut.words
      have hjoin := hcut.join
      rw [List.flatten_cons, List.append_assoc] at hjoin
      have hsame : d = c := by
        rcases List.prefix_or_prefix_of_prefix hstart ⟨_,hjoin⟩ with hdc | hcd
        · exact C.free d c hd hc hdc
        · exact (C.free c d hc hd hcd).symm
      subst hsame
      have htail := List.append_cancel_left (hjoin.trans h.symm)
      exact (List.prefix_cons_inj d).mpr (ih ⟨hcs,htail,hcut.unfinished⟩ hds rfl)

structure Machine (S : Type) where
  after : S → Text → S
  answer : S → Text → Text
  stopped : S → Bool

namespace Machine
variable {S : Type} (M : Machine S)

def reached (s : S) : List Text → S
  | [] => s
  | c::cs => if M.stopped s then s else reached (M.after s c) cs

def said (s : S) : List Text → Text
  | [] => []
  | c::cs => if M.stopped s then [] else M.answer s c++said (M.after s c) cs

variable {M} {s : S}

theorem reached_stopped (h : M.stopped s = true) (cs : List Text) : M.reached s cs = s := by
  cases cs with
  | nil => rfl
  | cons c cs => rw [reached, if_pos h]

theorem said_stopped (h : M.stopped s = true) (cs : List Text) : M.said s cs = [] := by
  cases cs with
  | nil => rfl
  | cons c cs => rw [said, if_pos h]

theorem reached_append (cs ds : List Text) :
    M.reached s (cs++ds) = M.reached (M.reached s cs) ds := by
  induction cs generalizing s with
  | nil => rfl
  | cons c cs ih =>
    rw [List.cons_append, reached, reached]
    split
    · exact (reached_stopped ‹_› ds).symm
    · exact ih

theorem said_append (cs ds : List Text) :
    M.said s (cs++ds) = M.said s cs++M.said (M.reached s cs) ds := by
  induction cs generalizing s with
  | nil => rfl
  | cons c cs ih =>
    rw [List.cons_append, said, said, reached]
    split
    · exact (said_stopped ‹_› ds).symm
    · rw [ih, List.append_assoc]

theorem reached_word {cs : List Text} (h : M.stopped (M.reached s cs) = false) (c : Text) :
    M.reached s (cs++[c]) = M.after (M.reached s cs) c := by
  rw [reached_append, reached, if_neg (by simp [h])]
  rfl

theorem said_word {cs : List Text} (h : M.stopped (M.reached s cs) = false) (c : Text) :
    M.said s (cs++[c]) = M.said s cs++M.answer (M.reached s cs) c := by
  rw [said_append, said, if_neg (by simp [h]), said, List.append_nil]

end Machine

structure Open (I : Interface) (α σ : Type) where
  here : Endpoint I α σ
  inbox : Text
  sent : Text
  stream : Text

variable {I : Interface} {α σ S : Type}

inductive Own (H : Handler I Halt σ) : Open I α σ → Open I α σ → Prop
  | acts {u : Open I α σ} {e : Endpoint I α σ} {inbox sent : Text}
      (h : Acts H false u.here u.inbox u.sent e inbox sent) : Own H u ⟨e,inbox,sent,u.stream⟩

inductive Moves (H : Handler I Halt σ) : Open I α σ → Open I α σ → Prop
  | own {u v : Open I α σ} (h : Own H u v) : Moves H u v
  | arrives (u : Open I α σ) (bs : Text) :
      Moves H u ⟨u.here,u.inbox++bs,u.sent,u.stream++bs⟩

def Still (H : Handler I Halt σ) (u : Open I α σ) : Prop := ∀ v, ¬ Own H u v

def opened (p : Program (net I) Halt α) (s : σ) : Open I α σ := ⟨⟨p,s,false⟩,[],[],[]⟩

theorem moves_stream {H : Handler I Halt σ} {u v : Open I α σ} (h : Moves H u v) :
    u.stream <+: v.stream := by
  cases h with
  | own h =>
    cases h with
    | acts _ => exact List.prefix_refl _
  | arrives bs => exact List.prefix_append _ _

theorem arrives_run (H : Handler I Halt σ) (p : Program (net I) Halt α) (s : σ) (bs cs : Text) :
    Relation.ReflTransGen (Moves H) (opened p s) ⟨⟨p,s,false⟩,bs++cs,[],bs++cs⟩ := by
  have hfirst : Moves H (opened p s) ⟨⟨p,s,false⟩,bs,[],bs⟩ := .arrives (opened p s) bs
  exact .tail (.single hfirst) (.arrives ⟨⟨p,s,false⟩,bs,[],bs⟩ cs)

theorem own_extends {H : Handler I Halt σ} {β : Type} (f : σ → List β)
    (hf : ∀ op s, f s <+: f (H op s).2) {u v : Open I α σ}
    (h : Relation.ReflTransGen (Own H) u v) : f u.here.state <+: f v.here.state := by
  induction h with
  | refl => exact List.prefix_refl _
  | tail _ hstep ih =>
    cases hstep with
    | acts h => exact ih.trans (acts_extends f hf h)

theorem still_ends {H : Handler I Halt σ} {G : Open I α σ → Prop} {u : Open I α σ} (hgood : G u)
    (h : Still H u) : Ends (Own H) G (Still H) u :=
  Ends.intro u hgood (fun h => h) fun v hv => absurd hv (h v)

theorem ends_still (H : Handler I Halt σ) (u : Open I α σ) :
    Ends (Own H) (fun v => v.stream = u.stream) (Still H) u := by
  obtain ⟨⟨p,s,closed⟩,inbox,sent,stream⟩ := u
  have hfail : ∀ (e : Halt) (s : σ) (closed : Bool) (inbox sent : Text),
      Ends (Own H) (fun v : Open I α σ => v.stream = stream) (Still H)
        ⟨⟨.fail e,s,closed⟩,inbox,sent,stream⟩ := by
    intro e s closed inbox sent
    apply still_ends (by rfl)
    rintro _ ⟨h⟩
    cases h
  induction p generalizing s closed inbox sent with
  | ret a =>
    apply still_ends (by rfl)
    rintro _ ⟨h⟩
    cases h
  | fail e => exact hfail e s closed inbox sent
  | call op next ih =>
    refine Ends.intro _ (by rfl) (fun h => h) ?_
    rintro _ ⟨h⟩
    cases h with
    | halt _ => exact hfail _ _ _ _ _
    | _ => exact ih _ _ _ _ _

section Calls
variable {H : Handler I Halt σ} {s : σ} {e : Endpoint I α σ} {inbox outbox inbox' outbox' : Text}

theorem sends_next {p q : Program (net I) Halt α} {bs : Text} (hs : Sends p bs q) (hne : bs ≠ [])
    (h : Acts H false ⟨p,s,false⟩ inbox outbox e inbox' outbox') :
    ∃ p' bs', e = ⟨p',s,false⟩ ∧ inbox' = inbox ∧ Sends p' bs' q ∧ outbox'++bs' = outbox++bs := by
  cases hs with
  | done _ => exact absurd rfl hne
  | @send buf next _ _ _ hbuf hnext =>
    obtain ⟨count,hle,hpos,hin,hout,he⟩ := send_acts h
    obtain ⟨rest,rfl⟩ := hbuf
    refine ⟨_,_,he,hin,hnext count hle hpos,?_⟩
    rw [hout, List.drop_append_of_le_length hle, List.append_assoc,
      ← List.append_assoc (buf.take count), List.take_append_drop]

theorem emits_next {p p' : Program (net I) Halt α} {s' : σ} {bs : Text} (hemits : Emits H p s bs p' s')
    (h : Acts H false ⟨p,s,false⟩ inbox outbox e inbox' outbox') :
    (bs = [] ∧ p = p' ∧ s = s') ∨ ∃ q t cs, e = ⟨q,t,false⟩ ∧ inbox' = inbox ∧
      Emits H q t cs p' s' ∧ outbox'++cs = outbox++bs := by
  induction hemits with
  | done p s => exact .inl ⟨rfl,rfl,rfl⟩
  | @send p q r s s' bs cs hs hrest ih =>
    by_cases hne : bs = []
    · subst hne
      obtain rfl := sends_nil hs
      exact ih h
    · obtain ⟨p1,bs1,he,hin,hs1,hout⟩ := sends_next hs hne h
      refine .inr ⟨p1,s,bs1++cs,he,hin,.send hs1 hrest,?_⟩
      rw [← List.append_assoc, hout, List.append_assoc]
  | @other op next r s s' s'' bs q hop hrest _ =>
    right
    cases h with
    | other hop' =>
      obtain ⟨hr,rfl⟩ := Prod.mk.inj (hop.symm.trans hop')
      cases hr
      exact ⟨next r,_,bs,rfl,rfl,hrest,rfl⟩
    | halt hop' => cases hop.symm.trans hop'

theorem emits_enabled {p p' : Program (net I) Halt α} {s' : σ} {bs : Text}
    (h : Emits H p s bs p' s') : (bs = [] ∧ p = p' ∧ s = s') ∨
      ∃ e inbox' outbox', Acts H false ⟨p,s,false⟩ inbox outbox e inbox' outbox' := by
  induction h with
  | done p s => exact .inl ⟨rfl,rfl,rfl⟩
  | send hs _ ih =>
    cases hs with
    | done _ => exact ih
    | @send buf next _ _ hne _ _ =>
      have hone : 1 ≤ buf.length := List.length_pos_iff.mpr hne
      exact .inr ⟨_,_,_,.send hone Nat.one_pos⟩
  | other hop _ _ => exact .inr ⟨_,_,_,.other hop⟩

theorem waiting_enabled {p : Program (net I) Halt α} (h : Waiting p) (hne : inbox ≠ []) :
    ∃ e inbox' outbox', Acts H false ⟨p,s,false⟩ inbox outbox e inbox' outbox' := by
  obtain ⟨len,next,hpos,rfl⟩ := h
  obtain ⟨c,cs,rfl⟩ := List.exists_cons_of_ne_nil hne
  have hone : [c].length ≤ len := hpos
  exact ⟨_,_,_,.receive hone (List.cons_ne_nil c []) rfl⟩

theorem takes_waiting {p q : Program (net I) Halt α} {bs : Text} (h : Takes p bs q) (hne : bs ≠ []) :
    Waiting p := by
  cases h with
  | done _ => exact absurd rfl hne
  | recv hpos _ _ => exact ⟨_,_,hpos,rfl⟩

theorem waiting_acts {p : Program (net I) Halt α} (hp : Waiting p)
    (h : Acts H false ⟨p,s,false⟩ inbox outbox e inbox' outbox') :
    ∃ p' bs, bs ≠ [] ∧ inbox = bs++inbox' ∧ outbox' = outbox ∧ e = ⟨p',s,false⟩ ∧
      (∀ cs q, Takes p (bs++cs) q → Takes p' cs q) ∧
      ∀ d q, Takes p d q → d ≠ [] → d <+: bs → d = bs := by
  obtain ⟨len,next,-,rfl⟩ := hp
  obtain ⟨bs,hle,hne,hin,hout,he⟩ := recv_acts h
  refine ⟨_,bs,hne,hin,hout,he,?_,?_⟩
  · intro cs q ht
    generalize hall : bs++cs = all at ht
    cases ht with
    | done _ => exact absurd (List.append_eq_nil_iff.mp hall).1 hne
    | recv _ _ hnext =>
      subst hall
      have hrest := hnext bs hle hne (List.prefix_append _ _)
      rwa [List.drop_left] at hrest
  · intro d q ht hd hpre
    cases ht with
    | done _ => exact absurd rfl hd
    | recv _ hlen _ => exact hpre.eq_of_length_le (hle.trans hlen)

end Calls

inductive Over : Program (net I) Halt α → Prop
  | ret (a : α) : Over (.ret a)
  | shutdown {next : Unit → Program (net I) Halt α} {a : α} (h : next () = .ret a) :
      Over (.call .shutdown next)

/-- A program that realizes a machine: what it does at the start of a word with
turns left for `j` words, and `able` is what its answer to a word relies on. -/
structure Conduct (H : Handler I Halt σ) (α S : Type) (bound : ℕ) where
  code : Code bound
  machine : Machine S
  state : S → σ
  able : S → Text → Prop
  ready : ℕ → S → Program (net I) Halt α → Prop
  leaves : ∀ j s p, ready j s p → machine.stopped s = true → Over p
  waits : ∀ j s p, ready (j+1) s p → machine.stopped s = false → Waiting p
  serves : ∀ j s p c, ready (j+1) s p → machine.stopped s = false → code.word c →
    ∃ q, Takes p c q ∧ (able s c → ∃ p', Emits H q (state s) (machine.answer s c) p'
      (state (machine.after s c)) ∧ ready j (machine.after s c) p')

section Conduct
variable {H : Handler I Halt σ} {bound : ℕ} (R : Conduct H α S bound)

/-- From here the rest of each word that starts with `pre` is received and answered. -/
def Serves (j : ℕ) (s : S) (pre : Text) (p : Program (net I) Halt α) : Prop :=
  ∀ d, R.code.word (pre++d) → ∃ q, Takes p d q ∧ (R.able s (pre++d) →
    ∃ p', Emits H q (R.state s) (R.machine.answer s (pre++d)) p'
      (R.state (R.machine.after s (pre++d))) ∧ R.ready j (R.machine.after s (pre++d)) p')

def Able (s0 : S) (stream : Text) : Prop :=
  ∀ cs c more, (∀ w ∈ cs, R.code.word w) → R.code.word c → cs.flatten++(c++more) = stream →
    R.machine.stopped (R.machine.reached s0 cs) = false → R.able (R.machine.reached s0 cs) c

variable {R} in
theorem able_prefix {s0 : S} {stream stream' : Text} (hpre : stream <+: stream')
    (h : Able R s0 stream') : Able R s0 stream := by
  obtain ⟨rest,rfl⟩ := hpre
  intro cs c more hcs hc hjoin
  apply h cs c (more++rest) hcs hc
  rw [← hjoin]
  simp only [List.append_assoc]

variable {R} in
theorem able_words {s0 : S} {stream rest : Text} {ws : List Text}
    (hcut : Cut R.code stream ws rest)
    (h : ∀ cs c later, cs++c::later = ws → R.machine.stopped (R.machine.reached s0 cs) = false →
      R.able (R.machine.reached s0 cs) c) : Able R s0 stream := by
  intro cs c more hcs hc hjoin hgoing
  have hwords : ∀ w ∈ cs++[c], R.code.word w :=
    List.forall_mem_append.mpr ⟨hcs,List.forall_mem_singleton.mpr hc⟩
  have hwhole : (cs++[c]).flatten++more = stream := by
    rw [List.flatten_append, List.flatten_singleton, List.append_assoc, hjoin]
  obtain ⟨later,hlater⟩ := words_initial hcut hwords hwhole
  rw [List.append_assoc] at hlater
  exact h cs c later hlater hgoing

variable (s0 : S) (greet : Text)

/-- What an end is doing, and what has come of the words `cs` by then. -/
inductive Phase : Open I α σ → Prop
  | reading {j : ℕ} {cs : List Text} {pre inbox : Text} {p : Program (net I) Halt α}
      (words : ∀ c ∈ cs, R.code.word c) (hpre : ∀ c, R.code.word c → ¬ c <+: pre)
      (hgoing : R.machine.stopped (R.machine.reached s0 cs) = false)
      (hturns : bound ≤ j+1+cs.length) (hwait : Waiting p)
      (h : Serves R j (R.machine.reached s0 cs) pre p) :
      Phase ⟨⟨p,R.state (R.machine.reached s0 cs),false⟩,inbox,greet++R.machine.said s0 cs,
        cs.flatten++(pre++inbox)⟩
  | answering {j : ℕ} {cs : List Text} {inbox sent bs : Text} {p p' : Program (net I) Halt α} {t : σ}
      (words : ∀ c ∈ cs, R.code.word c) (hturns : bound ≤ j+cs.length)
      (h : Emits H p t bs p' (R.state (R.machine.reached s0 cs)))
      (hready : R.ready j (R.machine.reached s0 cs) p')
      (hsent : sent++bs = greet++R.machine.said s0 cs) :
      Phase ⟨⟨p,t,false⟩,inbox,sent,cs.flatten++inbox⟩
  | left {cs : List Text} {inbox : Text} {a : α} (words : ∀ c ∈ cs, R.code.word c)
      (hstop : R.machine.stopped (R.machine.reached s0 cs) = true) :
      Phase ⟨⟨.ret a,R.state (R.machine.reached s0 cs),true⟩,inbox,
        greet++R.machine.said s0 cs,cs.flatten++inbox⟩

variable {R s0 greet}

theorem words_count {cs : List Text} (h : ∀ c ∈ cs, R.code.word c) :
    cs.length ≤ cs.flatten.length := by
  induction cs with
  | nil => exact Nat.zero_le _
  | cons c cs ih =>
    obtain ⟨hc,hcs⟩ := List.forall_mem_cons.mp h
    have hpos := List.length_pos_iff.mpr (R.code.nonempty c hc)
    have hle := ih hcs
    rw [List.flatten_cons, List.length_append, List.length_cons]
    omega

theorem turns_left {j : ℕ} {cs : List Text} {inbox : Text} (words : ∀ c ∈ cs, R.code.word c)
    (hturns : bound ≤ j+cs.length) (hlen : (cs.flatten++inbox).length < bound) : ∃ i, j = i+1 := by
  have hcount := words_count words
  rw [List.length_append] at hlen
  exact ⟨j-1,by omega⟩

theorem ready_serves {j : ℕ} {s : S} {p : Program (net I) Halt α} (hready : R.ready (j+1) s p)
    (hgoing : R.machine.stopped s = false) : Waiting p ∧ Serves R j s [] p :=
  ⟨R.waits j s p hready hgoing,fun d hd => R.serves j s p d hready hgoing hd⟩

theorem word_not_nil (c : Text) (hc : R.code.word c) : ¬ c <+: [] :=
  fun h => R.code.nonempty c hc (List.prefix_nil.mp h)

/-- The step lemma of an end that reads: the bytes end the word or lie inside it. -/
theorem reading_acts {j : ℕ} {cs : List Text} {pre inbox inbox' sent : Text}
    {p : Program (net I) Halt α} {e : Endpoint I α σ} (words : ∀ c ∈ cs, R.code.word c)
    (hpre : ∀ c, R.code.word c → ¬ c <+: pre)
    (hgoing : R.machine.stopped (R.machine.reached s0 cs) = false)
    (hturns : bound ≤ j+1+cs.length) (hwait : Waiting p)
    (hserves : Serves R j (R.machine.reached s0 cs) pre p)
    (hlen : (cs.flatten++(pre++inbox)).length < bound)
    (hable : Able R s0 (cs.flatten++(pre++inbox)))
    (h : Acts H false ⟨p,R.state (R.machine.reached s0 cs),false⟩ inbox
      (greet++R.machine.said s0 cs) e inbox' sent) :
    Phase R s0 greet ⟨e,inbox',sent,cs.flatten++(pre++inbox)⟩ := by
  obtain ⟨p',bs,hne,rfl,rfl,rfl,hrest,hexact⟩ := waiting_acts hwait h
  have hshort : (pre++bs).length < bound := by
    simp only [List.length_append] at hlen ⊢
    omega
  by_cases hword : ∃ c, R.code.word c ∧ c <+: pre++bs
  · obtain ⟨c,hc,hcpre⟩ := hword
    have hlonger : pre <+: c := by
      rcases List.prefix_or_prefix_of_prefix hcpre (List.prefix_append pre bs) with hle | hle
      · exact absurd hle (hpre c hc)
      · exact hle
    obtain ⟨d,rfl⟩ := hlonger
    have hd : d <+: bs := (List.prefix_append_right_inj pre).mp hcpre
    have hdne : d ≠ [] := by
      rintro rfl
      exact hpre _ hc (by rw [List.append_nil])
    obtain ⟨q,htakes,hanswer⟩ := hserves d hc
    obtain rfl := hexact d q htakes hdne hd
    have hnil := hrest [] q (by rwa [List.append_nil])
    obtain rfl := takes_nil hnil
    obtain ⟨p'',hemits,hready⟩ := hanswer (hable cs (pre++d) inbox' words hc
      (by rw [List.append_assoc]) hgoing)
    have hwords : ∀ c ∈ cs++[pre++d], R.code.word c := by
      intro c hmem
      rcases List.mem_append.mp hmem with hmem | hmem
      · exact words c hmem
      · exact List.mem_singleton.mp hmem ▸ hc
    have hstream : cs.flatten++(pre++(d++inbox')) = (cs++[pre++d]).flatten++inbox' := by
      rw [List.flatten_append, List.flatten_singleton]
      simp only [List.append_assoc]
    rw [hstream]
    rw [← Machine.reached_word hgoing] at hemits hready
    apply Phase.answering hwords _ hemits hready
    · rw [Machine.said_word hgoing, List.append_assoc]
    · rw [List.length_append, List.length_singleton]
      omega
  · rw [← List.append_assoc pre]
    obtain ⟨d,hd⟩ := (R.code.complete _ hshort).resolve_left hword
    have hnone : ∀ c, R.code.word c → ¬ c <+: pre++bs := fun c hc hle => hword ⟨c,hc,hle⟩
    have hserves' : Serves R j (R.machine.reached s0 cs) (pre++bs) p' := by
      intro d hd
      rw [List.append_assoc] at hd ⊢
      obtain ⟨q,htakes,hanswer⟩ := hserves (bs++d) hd
      exact ⟨q,hrest d q htakes,hanswer⟩
    have hdne : d ≠ [] := by
      rintro rfl
      rw [List.append_nil] at hd
      exact hword ⟨_,hd,List.prefix_refl _⟩
    obtain ⟨q,htakes,-⟩ := hserves' d hd
    exact .reading words hnone hgoing hturns (takes_waiting htakes hdne) hserves'

theorem phase_own {u v : Open I α σ} (hu : Phase R s0 greet u) (hlen : u.stream.length < bound)
    (hable : Able R s0 u.stream) (h : Own H u v) : Phase R s0 greet v := by
  cases hu with
  | reading words hpre hgoing hturns hwait hserves =>
    cases h with
    | acts h => exact reading_acts words hpre hgoing hturns hwait hserves hlen hable h
  | left _ _ =>
    cases h with
    | acts h => cases h
  | @answering j cs inbox0 sent0 bs p p' t words hturns hemits hready hsent =>
    cases h with
    | acts h =>
      rcases emits_next hemits h with ⟨rfl,rfl,rfl⟩ | ⟨q,t',more,rfl,rfl,hrest,hout⟩
      · rw [List.append_nil] at hsent
        subst hsent
        cases hstop : R.machine.stopped (R.machine.reached s0 cs) with
        | true =>
          cases R.leaves j _ p hready hstop with
          | ret a => cases h
          | shutdown hret =>
            cases h with
            | shutdown =>
              rw [hret]
              exact .left words hstop
        | false =>
          obtain ⟨j,rfl⟩ := turns_left words hturns hlen
          obtain ⟨hwait,hserves⟩ := ready_serves hready hstop
          exact reading_acts words word_not_nil hstop hturns hwait hserves hlen hable h
      · exact .answering words hturns hrest hready (hout.trans hsent)

theorem phase_moves {u v : Open I α σ} (hu : Phase R s0 greet u) (hlen : u.stream.length < bound)
    (hable : Able R s0 u.stream) (h : Moves H u v) : Phase R s0 greet v := by
  cases h with
  | own h => exact phase_own hu hlen hable h
  | arrives bs =>
    cases hu with
    | reading words hpre hgoing hturns hwait hserves =>
      rw [List.append_assoc, List.append_assoc]
      exact .reading words hpre hgoing hturns hwait hserves
    | answering words hturns hemits hready hsent =>
      rw [List.append_assoc]
      exact .answering words hturns hemits hready hsent
    | left words hstop =>
      rw [List.append_assoc]
      exact .left words hstop

/-- The run lemma. What the peer has sent only grows. -/
theorem phase_reached {p p' : Program (net I) Halt α} {t : σ}
    (hgreet : Emits H p t greet p' (R.state s0)) (hready : R.ready bound s0 p') {u : Open I α σ}
    (h : Relation.ReflTransGen (Moves H) (opened p t) u) (hlen : u.stream.length < bound)
    (hable : Able R s0 u.stream) : Phase R s0 greet u := by
  induction h with
  | refl =>
    have hwords : ∀ c ∈ ([] : List Text), R.code.word c := fun c hc => absurd hc List.not_mem_nil
    have hsent : []++greet = greet++R.machine.said s0 [] := (List.append_nil greet).symm
    have hstart : Phase R s0 greet ⟨⟨p,t,false⟩,[],[],([] : List Text).flatten++[]⟩ :=
      .answering hwords (Nat.le_add_right _ _) hgreet hready hsent
    exact hstart
  | tail _ hstep ih =>
    have hpre := moves_stream hstep
    have hlen' := hpre.length_le.trans_lt hlen
    have hable' := able_prefix hpre hable
    exact phase_moves (ih hlen' hable') hlen' hable' hstep

structure Settled (R : Conduct H α S bound) (s0 : S) (greet : Text) (cs : List Text)
    (u : Open I α σ) : Prop where
  sent : u.sent = greet++R.machine.said s0 cs
  state : u.here.state = R.state (R.machine.reached s0 cs)
  returned : R.machine.stopped (R.machine.reached s0 cs) = true → ∃ a, u.here.program = .ret a
  waits : R.machine.stopped (R.machine.reached s0 cs) = false →
    Waiting u.here.program ∧ u.inbox = []

theorem phase_sent {u : Open I α σ} (hu : Phase R s0 greet u) {cs : List Text} {rest : Text}
    (hcut : Cut R.code u.stream cs rest) : u.sent <+: greet++R.machine.said s0 cs := by
  have hsaid : ∀ ds more, (∀ d ∈ ds, R.code.word d) → ds.flatten++more = u.stream →
      greet++R.machine.said s0 ds <+: greet++R.machine.said s0 cs := by
    intro ds more hds hjoin
    obtain ⟨es,rfl⟩ := words_initial hcut hds hjoin
    rw [Machine.said_append, ← List.append_assoc]
    exact List.prefix_append _ _
  cases hu with
  | reading words => exact hsaid _ _ words rfl
  | answering words _ _ _ hsent =>
    apply List.IsPrefix.trans _ (hsaid _ _ words rfl)
    rw [← hsent]
    exact List.prefix_append _ _
  | left words => exact hsaid _ _ words rfl

theorem settled_stopped {u : Open I α σ} {ds cs : List Text} {more rest : Text}
    (hcut : Cut R.code u.stream cs rest) (hds : ∀ d ∈ ds, R.code.word d)
    (hjoin : ds.flatten++more = u.stream)
    (hstop : R.machine.stopped (R.machine.reached s0 ds) = true) {a : α}
    (hprogram : u.here.program = .ret a) (hstate : u.here.state = R.state (R.machine.reached s0 ds))
    (hsent : u.sent = greet++R.machine.said s0 ds) : Settled R s0 greet cs u := by
  obtain ⟨es,rfl⟩ := words_initial hcut hds hjoin
  have hreached : R.machine.reached s0 (ds++es) = R.machine.reached s0 ds := by
    rw [Machine.reached_append, Machine.reached_stopped hstop]
  constructor
  · rw [hsent, Machine.said_append, Machine.said_stopped hstop, List.append_nil]
  · rw [hstate, hreached]
  · exact fun _ => ⟨a,hprogram⟩
  · intro hgoing
    rw [hreached, hstop] at hgoing
    cases hgoing

theorem settled_waiting {u : Open I α σ} {ds cs : List Text} {pre rest : Text}
    (hcut : Cut R.code u.stream cs rest) (hcut' : Cut R.code u.stream ds pre)
    (hgoing : R.machine.stopped (R.machine.reached s0 ds) = false)
    (hwait : Waiting u.here.program) (hin : u.inbox = [])
    (hstate : u.here.state = R.state (R.machine.reached s0 ds))
    (hsent : u.sent = greet++R.machine.said s0 ds) : Settled R s0 greet cs u := by
  obtain rfl : ds = cs := (words_initial hcut hcut'.words hcut'.join).eq_of_length_le
    (words_initial hcut' hcut.words hcut.join).length_le
  refine ⟨hsent,hstate,?_,fun _ => ⟨hwait,hin⟩⟩
  intro hstop
  rw [hstop] at hgoing
  cases hgoing

theorem waiting_still {p : Program (net I) Halt α} {s : σ} {inbox sent stream : Text}
    (hwait : Waiting p) (h : Still H ⟨⟨p,s,false⟩,inbox,sent,stream⟩) : inbox = [] := by
  by_contra hne
  obtain ⟨e,inbox',sent',hacts⟩ := waiting_enabled hwait hne
  exact h _ (.acts hacts)

theorem phase_still {u : Open I α σ} (hu : Phase R s0 greet u) (hlen : u.stream.length < bound)
    (hstill : Still H u) {cs : List Text} {rest : Text} (hcut : Cut R.code u.stream cs rest) :
    Settled R s0 greet cs u := by
  cases hu with
  | reading words hpre hgoing _ hwait _ =>
    obtain rfl := waiting_still hwait hstill
    exact settled_waiting hcut ⟨words,by rw [List.append_nil],hpre⟩ hgoing hwait rfl rfl rfl
  | left words hstop => exact settled_stopped hcut words rfl hstop rfl rfl rfl
  | @answering j ds inbox sent bs p p' t words hturns hemits hready hsent =>
    rcases emits_enabled hemits with ⟨rfl,rfl,rfl⟩ | ⟨e,inbox',sent',hacts⟩
    · rw [List.append_nil] at hsent
      cases hstop : R.machine.stopped (R.machine.reached s0 ds) with
      | true =>
        cases R.leaves j _ p hready hstop with
        | ret a => exact settled_stopped hcut words rfl hstop rfl rfl hsent
        | shutdown _ => exact absurd (.acts .shutdown) (hstill _)
      | false =>
        obtain ⟨j,rfl⟩ := turns_left words hturns hlen
        have hwait := R.waits j _ p hready hstop
        obtain rfl := waiting_still hwait hstill
        exact settled_waiting hcut ⟨words,rfl,word_not_nil⟩ hstop hwait rfl rfl hsent
    · exact absurd (.acts hacts) (hstill _)

end Conduct

theorem own_moves {H : Handler I Halt σ} {u v : Open I α σ}
    (h : Relation.ReflTransGen (Own H) u v) : Relation.ReflTransGen (Moves H) u v :=
  Relation.ReflTransGen.mono (fun _ _ h => Moves.own h) _ _ h

/-- Whatever its peer sends and whenever, the end has sent an initial part of
the answers to the words of the stream, and all of them when it has no step.
Left alone it comes to that point. -/
theorem open_answers {H : Handler I Halt σ} {bound : ℕ} (R : Conduct H α S bound) {s0 : S}
    {greet : Text} {p p' : Program (net I) Halt α} {t : σ}
    (hgreet : Emits H p t greet p' (R.state s0)) (hready : R.ready bound s0 p') {u : Open I α σ}
    (h : Relation.ReflTransGen (Moves H) (opened p t) u) (hlen : u.stream.length < bound)
    (hable : Able R s0 u.stream) {cs : List Text} {rest : Text}
    (hcut : Cut R.code u.stream cs rest) :
    u.sent <+: greet++R.machine.said s0 cs ∧ (Still H u → Settled R s0 greet cs u) ∧
    (¬ ∃ run : ℕ → Open I α σ, run 0 = u ∧ ∀ k, Own H (run k) (run (k+1))) ∧
    ∃ v, Relation.ReflTransGen (Own H) u v ∧ v.stream = u.stream ∧ Settled R s0 greet cs v := by
  have hphase := phase_reached hgreet hready h hlen hable
  have hends := ends_still H u
  refine ⟨phase_sent hphase hcut,fun hstill => phase_still hphase hlen hstill hcut,
    ends_finite hends,?_⟩
  obtain ⟨v,hv,hstill⟩ := ends_final hends
  have hrest : Ends (Own H) (fun v => v.stream = u.stream) (Still H) v := ends_reachable hends hv
  have hstream := ends_good hrest
  refine ⟨v,hv,hstream,?_⟩
  rw [← hstream] at hlen hable hcut
  exact phase_still (phase_reached hgreet hready (h.trans (own_moves hv)) hlen hable) hlen hstill hcut

end Workshop.OpenConnection
