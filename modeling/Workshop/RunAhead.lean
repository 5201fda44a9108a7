import Workshop.HalfDuplex

/-!
# An end that runs ahead of its peer

A send and a call of its own take nothing away from the peer of an end: every
step the peer has before them it still has after them. So an end can be taken
to do them at once, and what is left to follow are the receptions. The other
end need not wait meanwhile.
-/

set_option autoImplicit false

namespace Workshop.RunAhead
open Workshop.CMemory Workshop.InteractiveProgram Workshop.ByteChannel Workshop.HalfDuplex

section Rest
variable {S : Type} {step : S → S → Prop} {G F : S → Prop}

/-- `Ahead n s s'` says that `s'` is `s` after some work of rank `n` which is
enabled and which every other step of `s` leaves to be done. -/
theorem ends_ahead {Ahead : ℕ → S → S → Prop}
    (good : ∀ n s s', Ahead n s s' → G s' → G s) (busy : ∀ n s s', Ahead n s s' → ∃ u, step s u)
    (moves : ∀ n s s' u, Ahead n s s' → step s u →
      u = s' ∨ (∃ m < n, Ahead m u s') ∨ ∃ u' m, step s' u' ∧ Ahead m u u')
    {n : ℕ} {s s' : S} (ha : Ahead n s s') (h : Ends step G F s') : Ends step G F s := by
  induction h generalizing n s with
  | intro s' hgood hrest hnext ih =>
    induction n using Nat.strong_induction_on generalizing s with
    | _ n ihn =>
      apply Ends.intro s (good n s s' ha hgood)
      · intro hstop
        obtain ⟨u,hu⟩ := busy n s s' ha
        exact absurd hu (hstop u)
      · intro u hu
        rcases moves n s s' u ha hu with rfl | ⟨m,hm,hahead⟩ | ⟨u',m,hu',hahead⟩
        · exact Ends.intro u hgood hrest hnext
        · exact ihn m hm hahead
        · exact ih u' hu' hahead

theorem ends_stutters (run : ℕ → S) (h : Ends step G F (run 0))
    (hrun : ∀ k, run (k+1) = run k ∨ step (run k) (run (k+1))) :
    ∃ bound, ∀ k ≥ bound, ¬ step (run k) (run (k+1)) := by
  classical
  generalize hs : run 0 = s at h
  induction h generalizing run with
  | intro s _ _ _ ih =>
    by_cases hsome : ∃ k, step (run k) (run (k+1))
    · have hwaits : ∀ k ≤ Nat.find hsome, run k = s := by
        intro k hk
        induction k with
        | zero => exact hs
        | succ k ihk =>
          rcases hrun k with hsame | hstep
          · rw [hsame, ihk (by omega)]
          · exact absurd hstep (Nat.find_min hsome (by omega))
      have hfirst := Nat.find_spec hsome
      rw [hwaits _ le_rfl] at hfirst
      obtain ⟨bound,hbound⟩ := ih _ hfirst (fun k => run (Nat.find hsome+1+k))
        (fun k => hrun (Nat.find hsome+1+k)) rfl
      refine ⟨Nat.find hsome+1+bound,fun k hk => ?_⟩
      obtain ⟨i,rfl⟩ := Nat.exists_eq_add_of_le hk
      rw [Nat.add_assoc]
      exact hbound (bound+i) (by omega)
    · exact ⟨0,fun k _ hk => hsome ⟨k,hk⟩⟩

end Rest

variable {I J : Interface} {α β γ σ τ : Type}

section Acts
variable {H : Handler I Halt σ} {s : σ} {ended : Bool} {e e' : Endpoint I α σ}
  {inbox outbox inbox' outbox' : Text}

theorem acts_more (bs : Text) (h : Acts H false e inbox outbox e' inbox' outbox') :
    Acts H false e (inbox++bs) outbox e' (inbox'++bs) outbox' := by
  cases h with
  | receive hlen hne hin => exact .receive hlen hne (by rw [hin, List.append_assoc])
  | finish hend _ => cases hend
  | send hle hpos => exact .send hle hpos
  | receiveClosed => exact .receiveClosed
  | sendClosed => exact .sendClosed
  | shutdown => exact .shutdown
  | other hop => exact .other hop
  | halt hop => exact .halt hop

theorem acts_ended (h : Acts H false e inbox outbox e' inbox' outbox') :
    Acts H true e inbox outbox e' inbox' outbox' := by
  cases h with
  | receive hlen hne hin => exact .receive hlen hne hin
  | finish hend _ => cases hend
  | send hle hpos => exact .send hle hpos
  | receiveClosed => exact .receiveClosed
  | sendClosed => exact .sendClosed
  | shutdown => exact .shutdown
  | other hop => exact .other hop
  | halt hop => exact .halt hop

theorem acts_extends {β : Type} (f : σ → List β) (hf : ∀ op s, f s <+: f (H op s).2)
    (h : Acts H ended e inbox outbox e' inbox' outbox') : f e.state <+: f e'.state := by
  cases h with
  | receive => exact List.prefix_refl _
  | finish => exact List.prefix_refl _
  | send => exact List.prefix_refl _
  | receiveClosed => exact List.prefix_refl _
  | sendClosed => exact List.prefix_refl _
  | shutdown => exact List.prefix_refl _
  | @other op _ s _ _ _ _ _ hop =>
    have := hf op s
    rwa [hop] at this
  | @halt op _ s _ _ _ _ _ hop =>
    have := hf op s
    rwa [hop] at this

/-- The end has no step, whatever its peer has received so far. -/
def Idle (H : Handler I Halt σ) (ended : Bool) (e : Endpoint I α σ) (inbox : Text) : Prop :=
  ∀ outbox e' inbox' outbox', ¬ Acts H ended e inbox outbox e' inbox' outbox'

theorem idle_waiting {p : Program (net I) Halt α} (hp : Waiting p) :
    Idle H false ⟨p,s,false⟩ [] := fun _ _ _ _ => waiting_blocked hp

theorem idle_ret (a : α) (closed : Bool) : Idle H ended ⟨.ret a,s,closed⟩ inbox := by
  intro _ _ _ _ h
  cases h

end Acts

section Runs
variable {HL : Handler I Halt σ} {HR : Handler J Halt τ} {ε : Type} {u v : System I J α β σ τ}

theorem left_extends (f : σ → List ε) (hf : ∀ op s, f s <+: f (HL op s).2)
    (h : Relation.ReflTransGen (Step HL HR) u v) : f u.left.state <+: f v.left.state := by
  induction h with
  | refl => exact List.prefix_refl _
  | tail _ hstep ih =>
    cases hstep with
    | left hact => exact ih.trans (acts_extends f hf hact)
    | right _ => exact ih

theorem right_extends (f : τ → List ε) (hf : ∀ op s, f s <+: f (HR op s).2)
    (h : Relation.ReflTransGen (Step HL HR) u v) : f u.right.state <+: f v.right.state := by
  induction h with
  | refl => exact List.prefix_refl _
  | tail _ hstep ih =>
    cases hstep with
    | left _ => exact ih
    | right hact => exact ih.trans (acts_extends f hf hact)

end Runs

section Right
variable {HL : Handler I Halt σ} {HR : Handler J Halt τ} {G F : System I J α β σ τ → Prop}
  {l : Endpoint I α σ} {q q' : Program (net J) Halt β} {t t' : τ} {inbox outbox : Text}

theorem ends_other {op : J.Op} {next : J.Res op → Program (net J) Halt β} {r : J.Res op}
    {closed : Bool} (hop : HR op t = (.ok r,t'))
    (hG : ∀ l i o, G ⟨l,⟨next r,t',closed⟩,i,o⟩ → G ⟨l,⟨.call (.other op) next,t,closed⟩,i,o⟩)
    (h : Ends (Step HL HR) G F ⟨l,⟨next r,t',closed⟩,inbox,outbox⟩) :
    Ends (Step HL HR) G F ⟨l,⟨.call (.other op) next,t,closed⟩,inbox,outbox⟩ := by
  let Ahead : ℕ → System I J α β σ τ → System I J α β σ τ → Prop := fun _ s s' =>
    ∃ l i o, s = ⟨l,⟨.call (.other op) next,t,closed⟩,i,o⟩ ∧ s' = ⟨l,⟨next r,t',closed⟩,i,o⟩
  have ha : Ahead 0 ⟨l,⟨.call (.other op) next,t,closed⟩,inbox,outbox⟩
      ⟨l,⟨next r,t',closed⟩,inbox,outbox⟩ := ⟨l,inbox,outbox,rfl,rfl⟩
  apply ends_ahead _ _ _ ha h
  · rintro _ _ _ ⟨l,i,o,rfl,rfl⟩ hgood
    exact hG l i o hgood
  · rintro _ _ _ ⟨l,i,o,rfl,rfl⟩
    exact ⟨_,.right (.other hop)⟩
  · rintro _ _ _ u ⟨l,i,o,rfl,rfl⟩ hu
    cases hu with
    | left hact => exact .inr (.inr ⟨_,0,.left hact,_,_,_,rfl,rfl⟩)
    | right hact =>
      cases hact with
      | other hop' =>
        obtain ⟨hr,rfl⟩ := Prod.mk.inj (hop.symm.trans hop')
        cases hr
        exact .inl rfl
      | halt hop' => cases hop.symm.trans hop'

/-- The bytes of a message count as under way before they are sent. -/
theorem ends_sends {bs : Text} (hs : Sends q bs q')
    (hG : ∀ q bs l i o, Sends q bs q' → bs ≠ [] → G ⟨l,⟨q',t,false⟩,i++bs,o⟩ →
      G ⟨l,⟨q,t,false⟩,i,o⟩)
    (h : Ends (Step HL HR) G F ⟨l,⟨q',t,false⟩,inbox++bs,outbox⟩) :
    Ends (Step HL HR) G F ⟨l,⟨q,t,false⟩,inbox,outbox⟩ := by
  by_cases hnil : bs = []
  · subst hnil
    obtain rfl := sends_nil hs
    rw [List.append_nil] at h
    exact h
  let Ahead : ℕ → System I J α β σ τ → System I J α β σ τ → Prop := fun n s s' =>
    ∃ l q bs i o, Sends q bs q' ∧ bs ≠ [] ∧ bs.length = n ∧ s = ⟨l,⟨q,t,false⟩,i,o⟩ ∧
      s' = ⟨l,⟨q',t,false⟩,i++bs,o⟩
  have ha : Ahead bs.length ⟨l,⟨q,t,false⟩,inbox,outbox⟩ ⟨l,⟨q',t,false⟩,inbox++bs,outbox⟩ :=
    ⟨l,q,bs,inbox,outbox,hs,hnil,rfl,rfl,rfl⟩
  apply ends_ahead _ _ _ ha h
  · rintro _ _ _ ⟨l,q,bs,i,o,hs,hne,-,rfl,rfl⟩ hgood
    exact hG q bs l i o hs hne hgood
  · rintro _ _ _ ⟨l,q,bs,i,o,hs,hne,-,rfl,rfl⟩
    cases hs with
    | done _ => exact absurd rfl hne
    | @send buf _ _ _ hbuf _ _ =>
      have hone : 1 ≤ buf.length := List.length_pos_iff.mpr hbuf
      exact ⟨_,.right (.send hone Nat.one_pos)⟩
  · rintro _ _ _ u ⟨l,q,bs,i,o,hs,hne,rfl,rfl,rfl⟩ hu
    cases hu with
    | left hact => exact .inr (.inr ⟨_,_,.left (acts_more bs hact),_,_,_,_,_,hs,hne,rfl,rfl,rfl⟩)
    | right hact =>
      cases hs with
      | done _ => exact absurd rfl hne
      | @send buf next _ _ hbuf hinitial hnext =>
        cases hact with
        | @send _ _ _ _ _ count hle hpos =>
          have hrest := hnext count hle hpos
          obtain ⟨rest,rfl⟩ := hinitial
          have hdrop : (buf++rest).drop count = buf.drop count++rest :=
            List.drop_append_of_le_length hle
          have hsame : i++buf.take count++(buf++rest).drop count = i++(buf++rest) := by
            rw [hdrop, List.append_assoc, ← List.append_assoc (buf.take count),
              List.take_append_drop]
          by_cases hdone : (buf++rest).drop count = []
          · rw [hdone] at hrest
            rw [hdone, List.append_nil] at hsame
            rw [sends_nil hrest, ← hsame]
            exact .inl rfl
          · refine .inr (.inl ⟨((buf++rest).drop count).length,?_,_,_,_,_,_,hrest,hdone,rfl,rfl,?_⟩)
            · rw [List.length_drop, List.length_append]
              omega
            · rw [hsame]

theorem ends_shutdown {next : Unit → Program (net J) Halt β}
    (hG : ∀ l i o, G ⟨l,⟨next (),t,true⟩,i,o⟩ → G ⟨l,⟨.call .shutdown next,t,false⟩,i,o⟩)
    (h : Ends (Step HL HR) G F ⟨l,⟨next (),t,true⟩,inbox,outbox⟩) :
    Ends (Step HL HR) G F ⟨l,⟨.call .shutdown next,t,false⟩,inbox,outbox⟩ := by
  let Ahead : ℕ → System I J α β σ τ → System I J α β σ τ → Prop := fun _ s s' =>
    ∃ l i o, s = ⟨l,⟨.call .shutdown next,t,false⟩,i,o⟩ ∧ s' = ⟨l,⟨next (),t,true⟩,i,o⟩
  have ha : Ahead 0 ⟨l,⟨.call .shutdown next,t,false⟩,inbox,outbox⟩
      ⟨l,⟨next (),t,true⟩,inbox,outbox⟩ := ⟨l,inbox,outbox,rfl,rfl⟩
  apply ends_ahead _ _ _ ha h
  · rintro _ _ _ ⟨l,i,o,rfl,rfl⟩ hgood
    exact hG l i o hgood
  · rintro _ _ _ ⟨l,i,o,rfl,rfl⟩
    exact ⟨_,.right .shutdown⟩
  · rintro _ _ _ u ⟨l,i,o,rfl,rfl⟩ hu
    cases hu with
    | left hact => exact .inr (.inr ⟨_,0,.left (acts_ended hact),_,_,_,rfl,rfl⟩)
    | right hact =>
      cases hact with
      | shutdown => exact .inl rfl

theorem ends_takes {bs : Text} (ht : Takes q bs q') (hidle : Idle HL false l inbox)
    (hG : ∀ q bs o, Takes q bs q' → bs ≠ [] → G ⟨l,⟨q,t,false⟩,inbox,o⟩)
    (h : Ends (Step HL HR) G F ⟨l,⟨q',t,false⟩,inbox,outbox⟩) :
    Ends (Step HL HR) G F ⟨l,⟨q,t,false⟩,inbox,bs++outbox⟩ := by
  induction hm : bs.length using Nat.strong_induction_on generalizing q bs with
  | _ m ih =>
    subst hm
    by_cases hnil : bs = []
    · subst hnil
      obtain rfl := takes_nil ht
      exact h
    have hgood := hG q bs (bs++outbox) ht hnil
    cases ht with
    | done _ => exact absurd rfl hnil
    | @recv len next _ _ hpos hlen hnext =>
      apply Ends.intro _ hgood
      · intro hrest
        obtain ⟨c,cs,rfl⟩ := List.exists_cons_of_ne_nil hnil
        have hone : [c].length ≤ len := hpos
        exact absurd (.right (.receive hone (List.cons_ne_nil c []) rfl)) (hrest _)
      · intro u hu
        cases hu with
        | left hact => exact absurd hact (hidle _ _ _ _)
        | right hact =>
          cases hact with
          | receive hle hne hin =>
            rename_i rest cs
            have hpre : cs <+: bs := List.prefix_of_prefix_length_le ⟨rest,hin.symm⟩
              (List.prefix_append _ _) (hle.trans hlen)
            have hcut := hnext cs hle hne hpre
            obtain ⟨more,rfl⟩ := hpre
            rw [List.append_assoc] at hin
            rw [List.drop_left] at hcut
            rw [← List.append_cancel_left hin]
            refine ih more.length ?_ hcut rfl
            have hlt := List.length_pos_iff.mpr hne
            rw [List.length_append]
            omega
          | finish _ hin => exact absurd (List.append_eq_nil_iff.mp hin).1 hnil

end Right

/-- The program sends these bytes, with calls of its own in between, and goes on. -/
inductive Emits (H : Handler I Halt σ) :
    Program (net I) Halt α → σ → Text → Program (net I) Halt α → σ → Prop
  | done (p : Program (net I) Halt α) (s : σ) : Emits H p s [] p s
  | send {p q r : Program (net I) Halt α} {s s' : σ} {bs cs : Text} (hs : Sends p bs q)
      (h : Emits H q s cs r s') : Emits H p s (bs++cs) r s'
  | other {op : I.Op} {next : I.Res op → Program (net I) Halt α} {r : I.Res op} {s s' s'' : σ}
      {bs : Text} {q : Program (net I) Halt α} (hop : H op s = (.ok r,s'))
      (h : Emits H (next r) s' bs q s'') : Emits H (.call (.other op) next) s bs q s''

theorem emits_trans {H : Handler I Halt σ} {p q r : Program (net I) Halt α} {s s' s'' : σ}
    {bs cs : Text} (h : Emits H p s bs q s') (h' : Emits H q s' cs r s'') :
    Emits H p s (bs++cs) r s'' := by
  induction h with
  | done p s => exact h'
  | send hs _ ih =>
    rw [List.append_assoc]
    exact .send hs (ih h')
  | other hop _ ih => exact .other hop (ih h')

theorem emits_sends {H : Handler I Halt σ} {p q : Program (net I) Halt α} {s : σ} {bs : Text}
    (hs : Sends p bs q) : Emits H p s bs q s := by
  have h := Emits.send hs (.done (H := H) q s)
  rwa [List.append_nil] at h

/-- A property of the left end in some of its positions, all of them at calls
of its own, and of the bytes that are not under way to it then. -/
structure Watches (seen : Program (net I) Halt α → Prop) (G : System I J α β σ τ → Prop) :
    Prop where
  own : ∀ p, seen p → Local p
  free : ∀ s : System I J α β σ τ, ¬ seen s.left.program → G s
  quiet : ∀ l r r' i bs o, G ⟨l,r',i++bs,o⟩ → G ⟨l,r,i,o⟩

section Conversations
variable {HL : Handler I Halt σ} {HR : Handler J Halt τ} {G F : System I J α β σ τ → Prop}
  {seen : Program (net I) Halt α → Prop} (hw : Watches seen G) {l : Endpoint I α σ}
  {r : Endpoint J β τ} {p p' : Program (net I) Halt α} {q q' : Program (net J) Halt β}
  {s s' : σ} {t t' : τ} {inbox outbox bs : Text}
include hw

theorem right_emits (h : Emits HR q t bs q' t')
    (hend : Ends (Step HL HR) G F ⟨l,⟨q',t',false⟩,inbox++bs,outbox⟩) :
    Ends (Step HL HR) G F ⟨l,⟨q,t,false⟩,inbox,outbox⟩ := by
  induction h generalizing inbox with
  | done q t =>
    rw [List.append_nil] at hend
    exact hend
  | send hs _ ih =>
    apply ends_sends hs (fun _ _ l i o _ _ => hw.quiet l _ _ i _ o)
    apply ih
    rwa [List.append_assoc]
  | other hop _ ih =>
    apply ends_other hop _ (ih hend)
    intro l i o hgood
    exact hw.quiet l _ _ i [] o (by rwa [List.append_nil])

theorem right_takes (ht : Takes q bs q') (hidle : Idle HL false l inbox)
    (hl : ¬ seen l.program) (h : Ends (Step HL HR) G F ⟨l,⟨q',t,false⟩,inbox,outbox⟩) :
    Ends (Step HL HR) G F ⟨l,⟨q,t,false⟩,inbox,bs++outbox⟩ :=
  ends_takes ht hidle (fun _ _ _ _ _ => hw.free _ hl) h

theorem left_other {op : I.Op} {next : I.Res op → Program (net I) Halt α} {x : I.Res op}
    {closed : Bool} (hop : HL op s = (.ok x,s')) (hp : ¬ seen (.call (.other op) next))
    (h : Ends (Step HL HR) G F ⟨⟨next x,s',closed⟩,r,inbox,outbox⟩) :
    Ends (Step HL HR) G F ⟨⟨.call (.other op) next,s,closed⟩,r,inbox,outbox⟩ :=
  ends_swap (ends_other hop (fun _ _ _ _ => hw.free _ hp) (ends_swap h))

omit hw in
theorem left_seen {op : I.Op} {next : I.Res op → Program (net I) Halt α} {x : I.Res op}
    {closed : Bool} (hop : HL op s = (.ok x,s')) (hidle : Idle HR closed r outbox)
    (hgood : G ⟨⟨.call (.other op) next,s,closed⟩,r,inbox,outbox⟩)
    (h : Ends (Step HL HR) G F ⟨⟨next x,s',closed⟩,r,inbox,outbox⟩) :
    Ends (Step HL HR) G F ⟨⟨.call (.other op) next,s,closed⟩,r,inbox,outbox⟩ := by
  apply ends_only hgood (.left (.other hop)) _ h
  intro u hu
  cases hu with
  | left hact =>
    cases hact with
    | other hop' =>
      obtain ⟨hx,rfl⟩ := Prod.mk.inj (hop.symm.trans hop')
      cases hx
      rfl
    | halt hop' => cases hop.symm.trans hop'
  | right hact => exact absurd hact (hidle _ _ _ _)

theorem left_sends (hs : Sends p bs p')
    (h : Ends (Step HL HR) G F ⟨⟨p',s,false⟩,r,inbox,outbox++bs⟩) :
    Ends (Step HL HR) G F ⟨⟨p,s,false⟩,r,inbox,outbox⟩ := by
  apply ends_swap
  apply ends_sends hs _ (ends_swap h)
  intro p bs r o i hs hne _
  apply hw.free
  intro hp
  cases hs with
  | done _ => exact absurd rfl hne
  | send _ _ _ =>
    obtain ⟨op,next,he⟩ := hw.own _ hp
    cases he

theorem left_shutdown {next : Unit → Program (net I) Halt α}
    (h : Ends (Step HL HR) G F ⟨⟨next (),s,true⟩,r,inbox,outbox⟩) :
    Ends (Step HL HR) G F ⟨⟨.call .shutdown next,s,false⟩,r,inbox,outbox⟩ := by
  apply ends_swap
  apply ends_shutdown _ (ends_swap h)
  intro r i o _
  exact hw.free _ fun hp => shutdown_not_local next (hw.own _ hp)

theorem left_takes (ht : Takes p bs p') (hidle : Idle HR false r outbox)
    (h : Ends (Step HL HR) G F ⟨⟨p',s,false⟩,r,inbox,outbox⟩) :
    Ends (Step HL HR) G F ⟨⟨p,s,false⟩,r,bs++inbox,outbox⟩ := by
  apply ends_swap
  apply ends_takes ht hidle _ (ends_swap h)
  intro p bs o ht hne
  exact hw.free _ fun hp => takes_not_local ht hne (hw.own _ hp)

theorem ends_still (hl : Idle HL r.closed l inbox) (hr : Idle HR l.closed r outbox)
    (hseen : ¬ seen l.program) (hF : F ⟨l,r,inbox,outbox⟩) :
    Ends (Step HL HR) G F ⟨l,r,inbox,outbox⟩ := by
  apply Ends.intro _ (hw.free _ hseen)
  · exact fun _ => hF
  · intro u hu
    cases hu with
    | left hact => exact absurd hact (hl _ _ _ _)
    | right hact => exact absurd hact (hr _ _ _ _)

end Conversations

end Workshop.RunAhead
