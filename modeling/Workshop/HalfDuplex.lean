import Workshop.ByteChannel

/-!
# Two programs on one connection

Both ends run a program with socket calls, each in its own time. What one end
sends lies in a queue until the other receives it, and every transfer may be
cut anywhere. As long as the two take turns, one sends what the other is
about to receive and waits, and no interleaving makes a difference.
-/

set_option autoImplicit false

namespace Workshop.HalfDuplex
open Workshop.CMemory Workshop.InteractiveProgram Workshop.ByteChannel

section Rest
variable {S T : Type}

/-- From here every run is finite, stays in `G` and comes to rest in `F`. -/
inductive Ends (step : S → S → Prop) (G F : S → Prop) : S → Prop
  | intro (s : S) (good : G s) (rest : (∀ t, ¬ step s t) → F s)
      (next : ∀ t, step s t → Ends step G F t) : Ends step G F s

variable {step : S → S → Prop} {G F : S → Prop} {s t : S}

theorem ends_reachable (h : Ends step G F s) (hr : Relation.ReflTransGen step s t) :
    Ends step G F t := by
  induction hr with
  | refl => exact h
  | tail _ hstep ih =>
    cases ih with
    | intro _ _ _ next => exact next _ hstep

theorem ends_good (h : Ends step G F s) : G s := by
  cases h with
  | intro _ good _ _ => exact good

theorem ends_rest (h : Ends step G F s) (hs : ∀ t, ¬ step s t) : F s := by
  cases h with
  | intro _ _ rest _ => exact rest hs

theorem ends_finite (h : Ends step G F s) :
    ¬ ∃ run : ℕ → S, run 0 = s ∧ ∀ k, step (run k) (run (k+1)) := by
  induction h with
  | intro s _ _ _ ih =>
    rintro ⟨run,h0,hrun⟩
    have hfirst : step s (run 1) := h0 ▸ hrun 0
    exact ih (run 1) hfirst ⟨fun k => run (k+1),rfl,fun k => hrun (k+1)⟩

theorem ends_final (h : Ends step G F s) : ∃ t, Relation.ReflTransGen step s t ∧ F t := by
  induction h with
  | intro s _ rest _ ih =>
    by_cases hstep : ∃ t, step s t
    · obtain ⟨t,ht⟩ := hstep
      obtain ⟨u,hu,hF⟩ := ih t ht
      exact ⟨u,hu.head ht,hF⟩
    · exact ⟨s,.refl,rest (not_exists.mp hstep)⟩

theorem ends_only (good : G s) (hstep : step s t) (honly : ∀ u, step s u → u = t)
    (h : Ends step G F t) : Ends step G F s := by
  apply Ends.intro s good
  · intro hrest
    exact absurd hstep (hrest t)
  · intro u hu
    rw [honly u hu]
    exact h

/-- Two relations with the same steps under a renaming of the states. -/
theorem ends_rename {step' : T → T → Prop} {G' F' : T → Prop} (f : S → T)
    (hf : ∀ s t, step s t → step' (f s) (f t)) (hb : ∀ s u, step' (f s) u → ∃ t, step s t ∧ u = f t)
    (hG : ∀ s, G' (f s) → G s) (hF : ∀ s, F' (f s) → F s) (h : Ends step' G' F' (f s)) :
    Ends step G F s := by
  generalize hu : f s = u at h
  induction h generalizing s with
  | intro u good rest _ ih =>
    subst hu
    apply Ends.intro s (hG s good)
    · intro hrest
      apply hF s (rest _)
      intro u hu
      obtain ⟨t,ht,-⟩ := hb s u hu
      exact hrest t ht
    · intro t ht
      exact ih (f t) (hf s t ht) rfl

end Rest

structure Endpoint (I : Interface) (α σ : Type) where
  program : Program (net I) Halt α
  state : σ
  closed : Bool

structure System (I J : Interface) (α β σ τ : Type) where
  left : Endpoint I α σ
  right : Endpoint J β τ
  toLeft : Text
  toRight : Text

variable {I J : Interface} {α β γ σ τ : Type}

/-- A call of one end. `ended` tells that the peer has closed its side: the
bytes under way still arrive, and after them `recv` answers 0. The queues have
no limit, so a send never blocks. Two ends that take turns do not depend on it,
since the peer of one that sends is at its `recv`. -/
inductive Acts (H : Handler I Halt σ) (ended : Bool) :
    Endpoint I α σ → Text → Text → Endpoint I α σ → Text → Text → Prop
  | receive {len : ℕ} {next : NetRes I (.recv len) → Program (net I) Halt α} {s : σ}
      {bs rest inbox outbox : Text} (hlen : bs.length ≤ len) (hne : bs ≠ [])
      (hin : inbox = bs++rest) :
      Acts H ended ⟨.call (.recv len) next,s,false⟩ inbox outbox
        ⟨next (some ⟨bs,hlen⟩),s,false⟩ rest outbox
  | finish {len : ℕ} {next : NetRes I (.recv len) → Program (net I) Halt α} {s : σ}
      {inbox outbox : Text} (hend : ended = true) (hin : inbox = []) :
      Acts H ended ⟨.call (.recv len) next,s,false⟩ inbox outbox
        ⟨next (some ⟨[],Nat.zero_le _⟩),s,false⟩ inbox outbox
  | send {buf : Text} {next : NetRes I (.send buf) → Program (net I) Halt α} {s : σ}
      {inbox outbox : Text} {count : ℕ} (hle : count ≤ buf.length) (hpos : 0 < count) :
      Acts H ended ⟨.call (.send buf) next,s,false⟩ inbox outbox
        ⟨next (some ⟨count,hle⟩),s,false⟩ inbox (outbox++buf.take count)
  | receiveClosed {len : ℕ} {next : NetRes I (.recv len) → Program (net I) Halt α} {s : σ}
      {inbox outbox : Text} :
      Acts H ended ⟨.call (.recv len) next,s,true⟩ inbox outbox ⟨next none,s,true⟩ inbox outbox
  | sendClosed {buf : Text} {next : NetRes I (.send buf) → Program (net I) Halt α} {s : σ}
      {inbox outbox : Text} :
      Acts H ended ⟨.call (.send buf) next,s,true⟩ inbox outbox ⟨next none,s,true⟩ inbox outbox
  | shutdown {next : Unit → Program (net I) Halt α} {s : σ} {closed : Bool}
      {inbox outbox : Text} :
      Acts H ended ⟨.call .shutdown next,s,closed⟩ inbox outbox ⟨next (),s,true⟩ inbox outbox
  | other {op : I.Op} {next : I.Res op → Program (net I) Halt α} {s s' : σ} {closed : Bool}
      {inbox outbox : Text} {r : I.Res op} (h : H op s = (.ok r,s')) :
      Acts H ended ⟨.call (.other op) next,s,closed⟩ inbox outbox ⟨next r,s',closed⟩ inbox outbox
  | halt {op : I.Op} {next : I.Res op → Program (net I) Halt α} {s s' : σ} {closed : Bool}
      {inbox outbox : Text} {e : Halt} (h : H op s = (.error e,s')) :
      Acts H ended ⟨.call (.other op) next,s,closed⟩ inbox outbox ⟨.fail e,s',closed⟩ inbox outbox

inductive Step (HL : Handler I Halt σ) (HR : Handler J Halt τ) :
    System I J α β σ τ → System I J α β σ τ → Prop
  | left {s : System I J α β σ τ} {l : Endpoint I α σ} {inbox outbox : Text}
      (h : Acts HL s.right.closed s.left s.toLeft s.toRight l inbox outbox) :
      Step HL HR s ⟨l,s.right,inbox,outbox⟩
  | right {s : System I J α β σ τ} {r : Endpoint J β τ} {inbox outbox : Text}
      (h : Acts HR s.left.closed s.right s.toRight s.toLeft r inbox outbox) :
      Step HL HR s ⟨s.left,r,outbox,inbox⟩

def System.swap (s : System I J α β σ τ) : System J I β α τ σ :=
  ⟨s.right,s.left,s.toRight,s.toLeft⟩

def quiet (p : Program (net I) Halt α) (s : σ) (q : Program (net J) Halt β) (t : τ) :
    System I J α β σ τ := ⟨⟨p,s,false⟩,⟨q,t,false⟩,[],[]⟩

section Swap
variable {HL : Handler I Halt σ} {HR : Handler J Halt τ} {s t : System I J α β σ τ}

theorem step_swap (h : Step HL HR s t) : Step HR HL s.swap t.swap := by
  cases h with
  | left h => exact .right h
  | right h => exact .left h

theorem ends_swap {G F : System I J α β σ τ → Prop}
    (h : Ends (Step HR HL) (fun s => G s.swap) (fun s => F s.swap) s.swap) :
    Ends (Step HL HR) G F s := by
  apply ends_rename System.swap (fun _ _ => step_swap) _ (fun _ h => h) (fun _ h => h) h
  intro s u hu
  exact ⟨u.swap,step_swap hu,rfl⟩

end Swap

inductive Sends : Program (net I) Halt α → Text → Program (net I) Halt α → Prop
  | done (p : Program (net I) Halt α) : Sends p [] p
  | send {buf : Text} {next : NetRes I (.send buf) → Program (net I) Halt α} {bs : Text}
      {q : Program (net I) Halt α} (hne : buf ≠ []) (hbuf : buf <+: bs)
      (h : ∀ count hle, 0 < count → Sends (next (some ⟨count,hle⟩)) (bs.drop count) q) :
      Sends (.call (.send buf) next) bs q

/-- The program receives these bytes, however they are cut, and goes on. It
never asks for more than them. -/
inductive Takes : Program (net I) Halt α → Text → Program (net I) Halt α → Prop
  | done (p : Program (net I) Halt α) : Takes p [] p
  | recv {len : ℕ} {next : NetRes I (.recv len) → Program (net I) Halt α} {bs : Text}
      {q : Program (net I) Halt α} (hpos : 0 < len) (hlen : len ≤ bs.length)
      (h : ∀ cs hle, cs ≠ [] → cs <+: bs →
        Takes (next (some ⟨cs,hle⟩)) (bs.drop cs.length) q) :
      Takes (.call (.recv len) next) bs q

theorem sends_trans {p q r : Program (net I) Halt α} {bs cs : Text} (h : Sends p bs q)
    (h' : Sends q cs r) : Sends p (bs++cs) r := by
  induction h with
  | done p => exact h'
  | send hne hbuf _ ih =>
    apply Sends.send hne (hbuf.trans (List.prefix_append _ _))
    intro count hle hpos
    have hdrop := ih count hle hpos h'
    rw [List.drop_append_of_le_length (hle.trans hbuf.length_le)]
    exact hdrop

theorem sends_bind {p q : Program (net I) Halt α} {bs : Text} (h : Sends p bs q)
    (f : α → Program (net I) Halt γ) : Sends (p >>= f) bs (q >>= f) := by
  induction h with
  | done p => exact .done _
  | send hne hbuf _ ih => exact .send hne hbuf fun count hle hpos => ih count hle hpos

theorem sends_then {p : Program (net I) Halt α} {a : α} {f : α → Program (net I) Halt γ}
    {q : Program (net I) Halt γ} {bs cs : Text} (h : Sends p bs (.ret a)) (h' : Sends (f a) cs q) :
    Sends (p >>= f) (bs++cs) q :=
  sends_trans (sends_bind h f) h'

theorem sends_last {p : Program (net I) Halt α} {a : α} {f : α → Program (net I) Halt γ}
    {q : Program (net I) Halt γ} {bs : Text} (h : Sends p bs (.ret a)) (hf : f a = q) :
    Sends (p >>= f) bs q := by
  rw [← hf]
  exact sends_bind h f

theorem takes_trans {p q r : Program (net I) Halt α} {bs cs : Text} (h : Takes p bs q)
    (h' : Takes q cs r) : Takes p (bs++cs) r := by
  induction h with
  | done p => exact h'
  | @recv len _ bs _ hpos hlen _ ih =>
    apply Takes.recv hpos (hlen.trans (by simp))
    intro ds hle hne hpre
    have hds : ds <+: bs :=
      List.prefix_of_prefix_length_le hpre (List.prefix_append _ _) (hle.trans hlen)
    have hdrop := ih ds hle hne hds h'
    rw [List.drop_append_of_le_length hds.length_le]
    exact hdrop

theorem takes_bind {p q : Program (net I) Halt α} {bs : Text} (h : Takes p bs q)
    (f : α → Program (net I) Halt γ) : Takes (p >>= f) bs (q >>= f) := by
  induction h with
  | done p => exact .done _
  | recv hpos hlen _ ih => exact .recv hpos hlen fun cs hle hne hpre => ih cs hle hne hpre

theorem takes_then {p : Program (net I) Halt α} {a : α} {f : α → Program (net I) Halt γ}
    {q : Program (net I) Halt γ} {bs cs : Text} (h : Takes p bs (.ret a)) (h' : Takes (f a) cs q) :
    Takes (p >>= f) (bs++cs) q :=
  takes_trans (takes_bind h f) h'

theorem takes_last {p : Program (net I) Halt α} {a : α} {f : α → Program (net I) Halt γ}
    {q : Program (net I) Halt γ} {bs : Text} (h : Takes p bs (.ret a)) (hf : f a = q) :
    Takes (p >>= f) bs q := by
  rw [← hf]
  exact takes_bind h f

theorem sendLoop_sends (bs : Text) : Sends (sendLoop bs : Program (net I) Halt SendEnd) bs
    (.ret .complete) := by
  induction hm : bs.length using Nat.strong_induction_on generalizing bs with
  | _ m ih =>
    subst hm
    rw [sendLoop]
    by_cases hnil : bs = []
    · subst hnil
      exact .done _
    · have hlen := List.length_pos_iff.mpr hnil
      rw [if_neg hnil]
      apply Sends.send hnil (List.prefix_refl bs)
      rintro (_ | count) hle hpos
      · exact absurd hpos (lt_irrefl 0)
      · exact ih _ (by rw [List.length_drop]; omega) (bs.drop (count+1)) rfl

theorem recvLoop_takes {n : ℕ} (len : ℕ) (buf : Vector UInt8 n) (got : ℕ) (bs : Text)
    (hgot : got+bs.length = len) (hn : len ≤ n) :
    Takes (recvLoop len buf got : Program (net I) Halt (ℕ × Vector UInt8 n)) bs
      (.ret (len,overwrite buf got bs)) := by
  induction hm : bs.length using Nat.strong_induction_on generalizing buf got bs with
  | _ m ih =>
    subst hm
    rw [recvLoop]
    by_cases hnil : bs = []
    · subst hnil
      rw [if_neg (by simp at hgot; omega), overwrite_nil]
      simp only [List.length_nil, Nat.add_zero] at hgot
      subst hgot
      exact .done _
    · have hlen := List.length_pos_iff.mpr hnil
      rw [if_pos (by omega)]
      apply Takes.recv (by omega) (by omega)
      rintro (_ | ⟨c,cs⟩) hle hne hpre
      · exact absurd rfl hne
      · obtain ⟨rest,rfl⟩ := hpre
        simp only [List.length_append, List.length_cons] at hgot hlen
        have hih := ih rest.length (by simp) (overwrite buf got (c::cs)) (got+(cs.length+1)) rest
          (by omega) rfl
        have hover := overwrite_append buf got (c::cs) rest (by simp; omega)
        simp only [List.length_cons] at hover
        rw [hover] at hih
        simp only [storeAll_fits buf got (c::cs) (by simp; omega), List.drop_left]
        exact hih

def Waiting (p : Program (net I) Halt α) : Prop :=
  ∃ len next, 0 < len ∧ p = .call (.recv len) next

def Local (p : Program (net I) Halt α) : Prop := ∃ op next, p = .call (.other op) next

def HangsUp (p : Program (net I) Halt α) (a : α) : Prop :=
  ∃ len next after, 0 < len ∧ p = .call (.recv len) next ∧
    next (some ⟨[],Nat.zero_le _⟩) = .call .shutdown after ∧ after () = .ret a

theorem hangsUp_waiting {p : Program (net I) Halt α} {a : α} (h : HangsUp p a) : Waiting p := by
  obtain ⟨len,next,_,hpos,hp,-⟩ := h
  exact ⟨len,next,hpos,hp⟩

theorem waiting_not_local {p : Program (net I) Halt α} (h : Waiting p) : ¬ Local p := by
  obtain ⟨len,next,-,rfl⟩ := h
  rintro ⟨op,next',he⟩
  cases he

theorem ret_not_local (a : α) : ¬ Local (.ret a : Program (net I) Halt α) := by
  rintro ⟨op,next,he⟩
  cases he

theorem shutdown_not_local (next : Unit → Program (net I) Halt α) :
    ¬ Local (.call .shutdown next) := by
  rintro ⟨op,next',he⟩
  cases he

theorem waiting_bind {p : Program (net I) Halt α} (h : Waiting p)
    (f : α → Program (net I) Halt γ) : Waiting (p >>= f) := by
  obtain ⟨len,next,hpos,rfl⟩ := h
  exact ⟨len,_,hpos,rfl⟩

theorem sends_nil {p q : Program (net I) Halt α} (h : Sends p [] q) : p = q := by
  cases h with
  | done p => rfl
  | send hne hbuf _ => exact absurd (List.prefix_nil.mp hbuf) hne

theorem takes_nil {p q : Program (net I) Halt α} (h : Takes p [] q) : p = q := by
  cases h with
  | done p => rfl
  | recv hpos hlen _ => exact absurd hpos (by simpa using hlen)

theorem sends_not_local {p q : Program (net I) Halt α} {bs : Text} (h : Sends p bs q)
    (hq : ¬ Local q) : ¬ Local p := by
  cases h with
  | done p => exact hq
  | send _ _ _ =>
    rintro ⟨op,next',he⟩
    cases he

theorem takes_not_local {p q : Program (net I) Halt α} {bs : Text} (h : Takes p bs q)
    (hbs : bs ≠ []) : ¬ Local p := by
  cases h with
  | done p => exact absurd rfl hbs
  | recv _ _ _ =>
    rintro ⟨op,next',he⟩
    cases he

section Acts
variable {H : Handler I Halt σ} {s : σ} {e : Endpoint I α σ} {inbox outbox inbox' outbox' : Text}

theorem recv_acts {len : ℕ} {next : NetRes I (.recv len) → Program (net I) Halt α}
    (h : Acts H false ⟨.call (.recv len) next,s,false⟩ inbox outbox e inbox' outbox') :
    ∃ cs hle, cs ≠ [] ∧ inbox = cs++inbox' ∧ outbox' = outbox ∧
      e = ⟨next (some ⟨cs,hle⟩),s,false⟩ := by
  cases h with
  | receive hle hne hin => exact ⟨_,hle,hne,hin,rfl,rfl⟩
  | finish hend _ => cases hend

theorem send_acts {buf : Text} {next : NetRes I (.send buf) → Program (net I) Halt α}
    (h : Acts H false ⟨.call (.send buf) next,s,false⟩ inbox outbox e inbox' outbox') :
    ∃ count hle, 0 < count ∧ inbox' = inbox ∧ outbox' = outbox++buf.take count ∧
      e = ⟨next (some ⟨count,hle⟩),s,false⟩ := by
  cases h with
  | send hle hpos => exact ⟨_,hle,hpos,rfl,rfl,rfl⟩

theorem waiting_blocked {p : Program (net I) Halt α} (hp : Waiting p) :
    ¬ Acts H false ⟨p,s,false⟩ [] outbox e inbox' outbox' := by
  obtain ⟨len,next,-,rfl⟩ := hp
  intro h
  obtain ⟨cs,_,hne,hin,-⟩ := recv_acts h
  exact hne (List.append_eq_nil_iff.mp hin.symm).1

theorem sends_acts {p q : Program (net I) Halt α} {bs : Text} (hs : Sends p bs q)
    (hq : Waiting q) (h : Acts H false ⟨p,s,false⟩ [] outbox e inbox' outbox') :
    ∃ p' bs', e = ⟨p',s,false⟩ ∧ inbox' = [] ∧ Sends p' bs' q ∧ outbox'++bs' = outbox++bs ∧
      bs'.length < bs.length := by
  cases hs with
  | done _ => exact absurd h (waiting_blocked hq)
  | @send buf next _ _ hne hbuf hnext =>
    obtain ⟨count,hle,hpos,hin,hout,he⟩ := send_acts h
    obtain ⟨rest,rfl⟩ := hbuf
    have hdrop : (buf++rest).drop count = buf.drop count++rest :=
      List.drop_append_of_le_length hle
    refine ⟨_,(buf++rest).drop count,he,hin,hnext count hle hpos,?_,?_⟩
    · rw [hout, hdrop, List.append_assoc, ← List.append_assoc (buf.take count),
        List.take_append_drop]
    · rw [List.length_drop, List.length_append]
      omega

theorem takes_acts {p q : Program (net I) Halt α} {bs : Text}
    (ht : Takes p (inbox++bs) q) (hne : inbox++bs ≠ [])
    (h : Acts H false ⟨p,s,false⟩ inbox outbox e inbox' outbox') :
    ∃ p', e = ⟨p',s,false⟩ ∧ outbox' = outbox ∧ Takes p' (inbox'++bs) q ∧
      inbox'.length < inbox.length := by
  generalize hall : inbox++bs = all at ht hne
  cases ht with
  | done _ => exact absurd rfl hne
  | @recv len next _ _ hpos hlen hnext =>
    obtain ⟨cs,hle,hcs,hin,hout,he⟩ := recv_acts h
    have hcut : all = cs++(inbox'++bs) := by rw [← hall, hin, List.append_assoc]
    have hrest := hnext cs hle hcs (hcut ▸ List.prefix_append _ _)
    rw [hcut, List.drop_left] at hrest
    refine ⟨_,he,hout,hrest,?_⟩
    have hlt := List.length_pos_iff.mpr hcs
    rw [hin, List.length_append]
    omega

end Acts

section Turns
variable {HL : Handler I Halt σ} {HR : Handler J Halt τ} {G F : System I J α β σ τ → Prop}
  {p p' : Program (net I) Halt α} {q q' : Program (net J) Halt β} {s s' : σ} {t t' : τ}

theorem ends_local {op : I.Op} {next : I.Res op → Program (net I) Halt α} {r : I.Res op}
    (good : G (quiet (.call (.other op) next) s q t)) (hop : HL op s = (.ok r,s'))
    (hq : Waiting q) (h : Ends (Step HL HR) G F (quiet (next r) s' q t)) :
    Ends (Step HL HR) G F (quiet (.call (.other op) next) s q t) := by
  apply ends_only good (.left (.other hop)) _ h
  intro u hu
  cases hu with
  | left hact =>
    cases hact with
    | other hop' =>
      obtain ⟨hr,rfl⟩ := Prod.mk.inj (hop.symm.trans hop')
      cases hr
      rfl
    | halt hop' => cases hop.symm.trans hop'
  | right hact => exact absurd hact (waiting_blocked hq)

theorem ends_local_right {op : J.Op} {next : J.Res op → Program (net J) Halt β} {r : J.Res op}
    (good : G (quiet p s (.call (.other op) next) t)) (hop : HR op t = (.ok r,t'))
    (hp : Waiting p) (h : Ends (Step HL HR) G F (quiet p s (next r) t')) :
    Ends (Step HL HR) G F (quiet p s (.call (.other op) next) t) :=
  ends_swap (ends_local good hop hp (ends_swap h))

theorem transfer_enabled {mid bs : Text} (hs : Sends p bs p') (ht : Takes q (mid++bs) q')
    (hne : mid++bs ≠ []) :
    ∃ u, Step HL HR ⟨⟨p,s,false⟩,⟨q,t,false⟩,[],mid⟩ u := by
  generalize hall : mid++bs = all at ht hne
  cases ht with
  | done _ => exact absurd rfl hne
  | @recv len next _ _ hpos _ _ =>
    cases mid with
    | cons c cs =>
      have hone : [c].length ≤ len := hpos
      exact ⟨_,.right (.receive hone (by simp) rfl)⟩
    | nil =>
      cases hs with
      | done _ => exact absurd hall.symm hne
      | @send buf _ _ _ hbuf _ _ =>
        have hone : 1 ≤ buf.length := List.length_pos_iff.mpr hbuf
        exact ⟨_,.left (.send hone Nat.one_pos)⟩

section Transfer
variable (hG : ∀ s, ¬ Local s.left.program → ¬ Local s.right.program → G s)
include hG

/-- While one end sends and the other receives, no matter how the transfers
are cut and interleaved. `mid` is under way and `bs` is still to be sent. By
induction on the bytes, which count twice until they are sent. -/
theorem ends_transfer (hp' : Waiting p') (h : Ends (Step HL HR) G F (quiet p' s q' t))
    {mid bs : Text} (hs : Sends p bs p') (ht : Takes q (mid++bs) q') :
    Ends (Step HL HR) G F ⟨⟨p,s,false⟩,⟨q,t,false⟩,[],mid⟩ := by
  induction hm : 2*bs.length+mid.length using Nat.strong_induction_on
    generalizing p q bs mid with
  | _ m ih =>
    subst hm
    by_cases hend : mid++bs = []
    · obtain ⟨rfl,rfl⟩ := List.append_eq_nil_iff.mp hend
      obtain rfl := sends_nil hs
      obtain rfl := takes_nil ht
      exact h
    apply Ends.intro
    · exact hG _ (sends_not_local hs (waiting_not_local hp')) (takes_not_local ht hend)
    · intro hrest
      obtain ⟨u,hu⟩ := transfer_enabled hs ht hend
      exact absurd hu (hrest u)
    · intro u hu
      cases hu with
      | left hact =>
        obtain ⟨p1,bs1,rfl,rfl,hs1,hsum,hless⟩ := sends_acts hs hp' hact
        have hlen := congrArg List.length hsum
        simp only [List.length_append] at hlen
        exact ih _ (by omega) hs1 (hsum ▸ ht) rfl
      | right hact =>
        obtain ⟨q1,rfl,rfl,ht1,hless⟩ := takes_acts ht hend hact
        exact ih _ (by omega) hs ht1 rfl

theorem ends_message {bs : Text} (hs : Sends p bs p') (ht : Takes q bs q') (hp' : Waiting p')
    (h : Ends (Step HL HR) G F (quiet p' s q' t)) : Ends (Step HL HR) G F (quiet p s q t) :=
  ends_transfer hG hp' h hs ht

theorem ends_message_right {bs : Text} (hs : Sends q bs q') (ht : Takes p bs p') (hq' : Waiting q')
    (h : Ends (Step HL HR) G F (quiet p' s q' t)) : Ends (Step HL HR) G F (quiet p s q t) :=
  ends_swap (ends_message (fun u hl hr => hG u.swap hr hl) hs ht hq' (ends_swap h))

theorem ends_hangup {a : α} {b : β} (hq : HangsUp q b)
    (hF : F ⟨⟨.ret a,s,true⟩,⟨.ret b,t,true⟩,[],[]⟩) :
    Ends (Step HL HR) G F ⟨⟨.ret a,s,true⟩,⟨q,t,false⟩,[],[]⟩ := by
  have hwait := hangsUp_waiting hq
  obtain ⟨len,next,after,_,rfl,hnext,hafter⟩ := hq
  have hdone : Ends (Step HL HR) G F ⟨⟨.ret a,s,true⟩,⟨.ret b,t,true⟩,[],[]⟩ := by
    apply Ends.intro _ (hG _ (ret_not_local a) (ret_not_local b))
    · exact fun _ => hF
    · intro u hu
      cases hu with
      | left hact => cases hact
      | right hact => cases hact
  have hclose : Ends (Step HL HR) G F ⟨⟨.ret a,s,true⟩,⟨.call .shutdown after,t,false⟩,[],[]⟩ := by
    apply ends_only (hG _ (ret_not_local a) (shutdown_not_local after)) (.right .shutdown) _
      (hafter ▸ hdone)
    intro u hu
    cases hu with
    | left hact => cases hact
    | right hact =>
      cases hact with
      | shutdown => rfl
  apply ends_only (hG _ (ret_not_local a) (waiting_not_local hwait)) (.right (.finish rfl rfl)) _
    (hnext ▸ hclose)
  intro u hu
  cases hu with
  | left hact => cases hact
  | right hact =>
    cases hact with
    | receive _ hne hin => exact absurd (List.append_eq_nil_iff.mp hin.symm).1 hne
    | finish _ _ => rfl

theorem ends_close {next : Unit → Program (net I) Halt α} {a : α} {b : β}
    (hnext : next () = .ret a) (hq : HangsUp q b) (hF : F ⟨⟨.ret a,s,true⟩,⟨.ret b,t,true⟩,[],[]⟩) :
    Ends (Step HL HR) G F (quiet (.call .shutdown next) s q t) := by
  have hwait := hangsUp_waiting hq
  have hafter : Ends (Step HL HR) G F ⟨⟨next (),s,true⟩,⟨q,t,false⟩,[],[]⟩ := by
    rw [hnext]
    exact ends_hangup hG hq hF
  apply ends_only (hG _ (shutdown_not_local next) (waiting_not_local hwait)) (.left .shutdown) _
    hafter
  intro u hu
  cases hu with
  | left hact =>
    cases hact with
    | shutdown => rfl
  | right hact => exact absurd hact (waiting_blocked hwait)

end Transfer
end Turns

end Workshop.HalfDuplex
