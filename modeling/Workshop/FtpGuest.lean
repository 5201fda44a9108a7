import Workshop.FtpLogin
import Workshop.FtpNetwork

/-!
# What a client that never logs in can see

The texts sent on such a connection are a function of its own lines, and its
queries never touch the directories. Two runs of the server in which it sends
the same lines are therefore the same to it.
-/

set_option autoImplicit false

namespace Workshop.FtpGuest
open Workshop.CMemory Workshop.InteractiveProgram Workshop.ThreadPool
open Workshop.FtpConfig Workshop.FtpCommand Workshop.FtpDirectories Workshop.FtpServer
open Workshop.FtpContract Workshop.FtpShared Workshop.FtpLogin Workshop.FtpNetwork

def receivedLine (e : Event server) : Option Text :=
  match e with
  | ⟨.receiveString,query⟩ => some query
  | _ => none

def sentText (e : Event server) : Option Text :=
  match e with
  | ⟨.sendString cmd,_⟩ => some cmd
  | _ => none

def sendFailed (e : Event server) : Bool :=
  match e with
  | ⟨.sendString _,returned⟩ => !returned
  | _ => false

def receivedLines (es : List (Event server)) : List Text := es.filterMap receivedLine

def sentTexts (es : List (Event server)) : List Text := es.filterMap sentText

def SendsSucceed (es : List (Event server)) : Prop := ∀ e ∈ es, sendFailed e = false

def guestAnswer (cfg : Config) (cli : Client) (query : Text) : Text × Client :=
  match createCommand query >>= plainReply cfg cli with
  | .ok r => (reply cfg r.id r.message,r.after)
  | .error _ => ([],cli)

/-- The answers to the lines of a client, up to the one that ends its session. -/
def guestScript (cfg : Config) : Client → List Text → List Text
  | _, [] => []
  | cli, query::queries =>
    if cli.quit || query.length ≤ 1 then []
    else (guestAnswer cfg cli query).1::guestScript cfg (guestAnswer cfg cli query).2 queries

def expected (cfg : Config) (lines : List Text) : List Text :=
  reply cfg idNewClient msgNewClient::guestScript cfg Client.new lines

theorem guestScript_over (cfg : Config) {cli : Client} (h : cli.quit = true) (lines : List Text) :
    guestScript cfg cli lines = [] := by
  cases lines with
  | nil => rfl
  | cons query queries => rw [guestScript, if_pos (by simp [h])]

structure Seen where
  history : History
  received : List Text
  sent : List Text
  failed : Bool

def see (l : Seen) (op : ServerOp) (r : ServerRes op) : Seen where
  history := observe l.history op r
  received := l.received++(receivedLine ⟨op,r⟩).toList
  sent := l.sent++(sentText ⟨op,r⟩).toList
  failed := l.failed || sendFailed ⟨op,r⟩

def Known (l : Seen) : Prop := ∃ e ∈ l.history.handled, e.2.logged = true

def Promised (cfg : Config) (l : Seen) : Prop :=
  ∀ more, l.sent <+: expected cfg (l.received++more)

def NoDirectories : ServerOp → Prop
  | .addDirectory _ => False
  | .removeDirectory _ => False
  | .directoriesSize => False
  | .getList => False
  | _ => True

/-- As long as the client is not logged in, the directories are left alone, the
promise is kept, and before the next read it is fulfilled. -/
def guest (cfg : Config) : Contract server Seen where
  may l op := Known l ∨ (NoDirectories op ∧ Promised cfg l ∧
    (op = .receiveString → l.sent = expected cfg l.received))
  rely _ _ _ := True
  view := see

def Closed (cfg : Config) (l : Seen) : Prop :=
  Known l ∨ (Promised cfg l ∧ (l.failed = false → ∀ more, l.sent = expected cfg (l.received++more)))

/-- The session has stopped in the middle, with an exception only if a text
could not be sent. -/
def Cut (cfg : Config) (e : Halt) (l : Seen) : Prop :=
  Known l ∨ (Promised cfg l ∧ (e = .thrown → l.failed = true))

def AtTurn (cfg : Config) (cli : Client) (l : Seen) : Prop :=
  Known l ∨ (cli.logged = false ∧
    ∀ more, expected cfg (l.received++more) = l.sent++guestScript cfg cli more)

theorem known_see {l : Seen} (h : Known l) (op : ServerOp) (r : ServerRes op) :
    Known (see l op r) := by
  obtain ⟨e,he,hl⟩ := h
  refine ⟨e,?_,hl⟩
  cases op with
  | note n =>
    cases n with
    | received cli query => exact he
    | handled cli =>
      simp only [see, observe]
      cases l.history.pending with
      | none => exact he
      | some p => exact List.mem_append_left _ he
  | _ => exact he

theorem known_keeps {α : Type} {cfg : Config} {Q : α → Seen → Prop} {R : Halt → Seen → Prop}
    (hQ : ∀ a l, Known l → Q a l) (hR : ∀ e l, Known l → R e l) (p : Session α) {l : Seen}
    (h : Known l) : Keeps (guest cfg) Q R p l :=
  keeps_free (F := Known) (fun _ op r h => known_see h op r) (fun _ _ h => Or.inl h) hQ hR p h

theorem atTurn_promised {cfg : Config} {cli : Client} {l : Seen} (h : AtTurn cfg cli l) :
    Known l ∨ Promised cfg l := by
  rcases h with h | ⟨_,h⟩
  · exact .inl h
  · right
    intro more
    rw [h more]
    exact List.prefix_append _ _

theorem guestAnswer_eq {cfg : Config} {cli : Client} {query : Text} {cmd : Command} {r : Reply}
    (hc : createCommand query = .ok cmd) (hr : plainReply cfg cli cmd = .ok r) :
    guestAnswer cfg cli query = (reply cfg r.id r.message,r.after) := by
  rw [guestAnswer, hc, ok_bind, hr]

theorem respond_guest {cfg : Config} (hcfg : cfg.DefinesAll) {cli : Client}
    (hl : cli.logged = false) {query : Text} (hlen : 1 < query.length) :
    respondQuery cfg query cli = sendString (guestAnswer cfg cli query).1 >>= fun _ =>
      .ret (guestAnswer cfg cli query).2 := by
  have hne : query ≠ [] := by
    intro hnil
    simp [hnil] at hlen
  obtain ⟨cmd,hc⟩ := create_total hne
  obtain ⟨r,hr⟩ := plainReply_total (hcfg keyUser (by simp [messageKeys]))
    (hcfg keyPass (by simp [messageKeys])) cli cmd
  rw [guestAnswer_eq hc hr, respondQuery, hc, Program.lift_ok, Program.ret_bind,
    sendResponse_plain cfg cli cmd (.inl hl), hr, Program.lift_ok, Program.ret_bind,
    sendMessage_eq (hcfg r.message (plainReply_key hr))]

theorem guest_answer {cfg : Config} (hcfg : cfg.DefinesAll) {cli : Client} {l : Seen}
    (ht : AtTurn cfg cli l) (hquit : cli.quit = false) {query : Text} (hlen : 1 < query.length) :
    Keeps (guest cfg) (AtTurn cfg) (Cut cfg) (answerQuery cfg query cli)
      (see l .receiveString query) := by
  rcases ht with hk | ⟨hl,hexp⟩
  · exact known_keeps (fun _ _ h => .inl h) (fun _ _ h => .inl h) _ (known_see hk _ _)
  · have hnext : ∀ more, expected cfg (l.received++[query]++more) =
        l.sent++[(guestAnswer cfg cli query).1]++
          guestScript cfg (guestAnswer cfg cli query).2 more := by
      intro more
      rw [List.append_assoc, hexp, List.singleton_append, guestScript, if_neg (by simp [hquit, hlen])]
      simp
    have hbefore : ∀ more, l.sent <+: expected cfg (l.received++[query]++more) := by
      intro more
      rw [hnext, List.append_assoc]
      exact List.prefix_append _ _
    have hafter : ∀ more, l.sent++[(guestAnswer cfg cli query).1] <+:
        expected cfg (l.received++[query]++more) := by
      intro more
      rw [hnext]
      exact List.prefix_append _ _
    constructor
    · exact .inr ⟨trivial,by simpa [Promised, guest, see, receivedLine, sentText] using hbefore,by simp⟩
    · intro _ _
      rw [respond_guest hcfg hl hlen]
      constructor
      · exact .inr ⟨trivial,by simpa [Promised, guest, see, receivedLine, sentText] using hbefore,by simp⟩
      · intro returned _
        cases returned with
        | false =>
          right
          constructor
          · simpa [Promised, guest, see, receivedLine, sentText] using hafter
          · intro _
            simp [guest, see, sendFailed]
        | true =>
          constructor
          · exact .inr ⟨trivial,by simpa [Promised, guest, see, receivedLine, sentText] using hafter,by simp⟩
          · intro _ _
            cases hlogged : (guestAnswer cfg cli query).2.logged with
            | true =>
              left
              refine ⟨(query,(guestAnswer cfg cli query).2),?_,hlogged⟩
              simp [guest, see, observe]
            | false =>
              right
              refine ⟨hlogged,?_⟩
              simpa [guest, see, receivedLine, sentText] using hnext

theorem guest_session {cfg : Config} (hcfg : cfg.DefinesAll) (n : ℕ) :
    Keeps (guest cfg) (fun _ l => Closed cfg l) (Cut cfg) (respondClient cfg n)
      ⟨.empty,[],[],false⟩ := by
  have hprefix : ∀ more, [reply cfg idNewClient msgNewClient] <+: expected cfg more := by
    intro more
    exact ⟨guestScript cfg Client.new more,rfl⟩
  apply keeps_session (J := AtTurn cfg)
  · rw [sendHello, formatCmd_eq (hcfg msgNewClient (by simp [messageKeys]))]
    constructor
    · exact .inr ⟨trivial,fun more => List.nil_prefix,by simp⟩
    · intro returned _
      cases returned with
      | true =>
        right
        refine ⟨rfl,?_⟩
        intro more
        simp [guest, see, receivedLine, sentText, expected]
      | false =>
        right
        constructor
        · simpa [Promised, guest, see, receivedLine, sentText] using hprefix
        · intro _
          simp [guest, see, sendFailed]
  · intro l ht
    apply keeps_loop
    · intro cli l ht hquit
      rcases ht with hk | ⟨hl,hexp⟩
      · exact .inl hk
      · refine .inr ⟨trivial,fun more => ?_,fun _ => ?_⟩
        · rw [hexp]
          exact List.prefix_append _ _
        · have hnow := hexp []
          rw [List.append_nil] at hnow
          rw [hnow]
          simp [guestScript]
    · intro cli l query ht hquit _ hlen
      exact guest_answer hcfg ht hquit hlen
    · intro cli l query ht hquit _ hlen
      rcases ht with hk | ⟨hl,hexp⟩
      · exact .inl (known_see hk _ _)
      · refine .inr ⟨hl,fun more => ?_⟩
        have hstop := hexp (query::more)
        rw [guestScript, if_pos (by simp [hlen])] at hstop
        rw [guestScript_over cfg rfl]
        simpa [guest, see, receivedLine, sentText] using hstop
    · intro cli l ht
      rcases atTurn_promised ht with h | h
      · exact .inl h
      · exact .inr ⟨h,by simp⟩
    · exact ht
  · intro cli l ht hquit
    rcases ht with hk | ⟨hl,hexp⟩
    · exact .inl hk
    · refine .inr ⟨fun more => ?_,fun _ more => ?_⟩
      · rw [hexp]
        exact List.prefix_append _ _
      · rw [hexp, guestScript_over cfg hquit, List.append_nil]
  · intro l h
    rcases h with hk | ⟨hp,hfailed⟩
    · exact .inl hk
    · refine .inr ⟨hp,fun hf => ?_⟩
      rw [hfailed rfl] at hf
      cases hf

theorem after_see (cfg : Config) (l : Seen) (es : List (Event server)) :
    (guest cfg).after l es =
      ⟨es.foldl (fun h e => observe h e.op e.res) l.history,l.received++receivedLines es,
        l.sent++sentTexts es,l.failed || es.any sendFailed⟩ := by
  induction es generalizing l with
  | nil => simp [Contract.after, receivedLines, sentTexts]
  | cons e es ih =>
    have hstep : (guest cfg).after l (e::es) = (guest cfg).after (see l e.op e.res) es := rfl
    rw [hstep, ih]
    simp only [see, receivedLines, sentTexts, List.filterMap_cons, List.foldl_cons, List.any_cons,
      List.append_assoc, Bool.or_assoc]
    congr 1
    · cases receivedLine e <;> simp
    · cases sentText e <;> simp

variable {ι : Type} [DecidableEq ι]

theorem not_known {cfg : Config} {h : History} (hf : Faithful cfg h)
    (hg : ¬ LoginComplete cfg h.queries) {received sent : List Text} {failed : Bool} :
    ¬ Known ⟨h,received,sent,failed⟩ := by
  intro hk
  obtain ⟨⟨query,cli⟩,he,hl⟩ := hk
  obtain ⟨before,after,hsplit⟩ := List.append_of_mem he
  have hcomplete := (hf.handled before query cli after hsplit).mp hl
  apply hg
  rw [History.queries, hsplit, List.map_append, List.map_cons, List.append_cons]
  exact loginComplete_append hcomplete _

/-- The thread waits for another line, or its session is over. -/
def Settled (i : ι) (lines : List Text) (q : ServerPool ι) : Prop :=
  (∃ next, q.thread i = .call .receiveString next ∧ receivedLines (own i q.trace) = lines) ∨
    q.thread i = .ret ()

def bytesSent (i : ι) (trace : List (ι × Event server)) : Text :=
  (sentTexts (own i trace)).flatMap transmitted

section Run
variable {cfg : Config} (hcfg : cfg.DefinesAll) {dirs : Directories} {n : ι → ℕ}
  {q : ServerPool ι} (h : Reaches directories (serverStart cfg dirs n) q) (i : ι)
  (hg : ¬ LoginComplete cfg (history i q.trace).queries)
include hcfg h hg

theorem guest_keeps :
    (¬ Known ((guest cfg).after ⟨.empty,[],[],false⟩ (own i q.trace))) ∧
    Keeps (guest cfg) (fun _ l => Closed cfg l) (Cut cfg) (q.thread i)
      ((guest cfg).after ⟨.empty,[],[],false⟩ (own i q.trace)) := by
  have hfaithful := run_faithful (hcfg keyUser (by simp [messageKeys]))
    (hcfg keyPass (by simp [messageKeys])) h i
  constructor
  · rw [after_see]
    exact not_known hfaithful hg
  · exact keeps_performs (reaches_performs h i) (guest_session hcfg (n i))
      (relied_trivial (fun _ _ _ => trivial) _ _)

theorem guest_promised (more : List Text) :
    sentTexts (own i q.trace) <+: expected cfg (receivedLines (own i q.trace)++more) := by
  obtain ⟨hk,hkeeps⟩ := guest_keeps hcfg h i hg
  have hmay : ∀ l op, (guest cfg).may l op → Known l ∨ Promised cfg l :=
    fun _ _ h => Or.imp_right (fun h => h.2.1) h
  have hnow := keeps_now (G := fun l => Known l ∨ Promised cfg l)
    (fun _ _ h => Or.imp_right And.left h) (fun _ _ h => Or.imp_right And.left h) hmay hkeeps
  have hpromised := hnow.resolve_left hk
  rw [after_see] at hpromised
  simpa using hpromised more

theorem guest_settled {lines : List Text} (hlines : receivedLines (own i q.trace) <+: lines)
    (hsends : SendsSucceed (own i q.trace)) (hs : Settled i lines q) :
    sentTexts (own i q.trace) = expected cfg lines := by
  obtain ⟨hk,hkeeps⟩ := guest_keeps hcfg h i hg
  rcases hs with ⟨next,hcall,hall⟩ | hret
  · rw [hcall] at hkeeps
    have hsent := (hkeeps.1.resolve_left hk).2.2 rfl
    rw [after_see] at hsent
    simpa [hall] using hsent
  · rw [hret] at hkeeps
    obtain ⟨more,rfl⟩ := hlines
    have hany : (own i q.trace).any sendFailed = false := by
      rw [List.any_eq_false]
      intro e he
      simp [hsends e he]
    have hsent := (hkeeps.resolve_left hk).2 (by rw [after_see]; simpa using hany) more
    rw [after_see] at hsent
    simpa using hsent

theorem guest_frame {q' : ServerPool ι} (hstep : StepOf directories i q q') :
    q'.shared = q.shared := by
  obtain ⟨hk,hkeeps⟩ := guest_keeps hcfg h i hg
  obtain ⟨op,next,r,hcall,hans,_,_⟩ := hstep
  rw [hcall] at hkeeps
  have hop := (hkeeps.1.resolve_left hk).1
  cases op with
  | receiveString => exact hans.2
  | sendString cmd => exact hans
  | note e => exact hans
  | _ => cases hop

end Run

/-- Two runs that differ in the directories and in all the other connections. A
client that does not log in receives the same bytes in both, as far as each has
come, and its own steps leave the directories alone. -/
theorem guest_noninterference {cfg : Config} (hcfg : cfg.DefinesAll) (i : ι) (lines : List Text)
    {dirs₁ dirs₂ : Directories} {n₁ n₂ : ι → ℕ} {q₁ q₂ : ServerPool ι}
    (h₁ : Reaches directories (serverStart cfg dirs₁ n₁) q₁)
    (h₂ : Reaches directories (serverStart cfg dirs₂ n₂) q₂)
    (hl₁ : receivedLines (own i q₁.trace) <+: lines)
    (hl₂ : receivedLines (own i q₂.trace) <+: lines)
    (hg₁ : ¬ LoginComplete cfg (history i q₁.trace).queries)
    (hg₂ : ¬ LoginComplete cfg (history i q₂.trace).queries) :
    (bytesSent i q₁.trace <+: bytesSent i q₂.trace ∨
      bytesSent i q₂.trace <+: bytesSent i q₁.trace) ∧
    (Settled i lines q₁ → Settled i lines q₂ → SendsSucceed (own i q₁.trace) →
      SendsSucceed (own i q₂.trace) → bytesSent i q₁.trace = bytesSent i q₂.trace) ∧
    (∀ q, StepOf directories i q₁ q → q.shared = q₁.shared) ∧
    (∀ q, StepOf directories i q₂ q → q.shared = q₂.shared) := by
  refine ⟨?_,?_,?_,?_⟩
  · obtain ⟨more₁,hmore₁⟩ := hl₁
    obtain ⟨more₂,hmore₂⟩ := hl₂
    have hp₁ := guest_promised hcfg h₁ i hg₁ more₁
    have hp₂ := guest_promised hcfg h₂ i hg₂ more₂
    rw [hmore₁] at hp₁
    rw [hmore₂] at hp₂
    rcases List.prefix_or_prefix_of_prefix hp₁ hp₂ with hle | hle
    · exact .inl (hle.flatMap transmitted)
    · exact .inr (hle.flatMap transmitted)
  · intro hs₁ hs₂ hsends₁ hsends₂
    rw [bytesSent, bytesSent, guest_settled hcfg h₁ i hg₁ hl₁ hsends₁ hs₁,
      guest_settled hcfg h₂ i hg₂ hl₂ hsends₂ hs₂]
  · intro q hstep
    exact guest_frame hcfg h₁ i hg₁ hstep
  · intro q hstep
    exact guest_frame hcfg h₂ i hg₂ hstep

def guestCalls : List (Event server) :=
  [⟨.sendString (text "220 newClient\n"),true⟩,
    ⟨.receiveString,text "LIST\n"⟩,
    ⟨.note (.received Client.new (text "LIST\n")),()⟩,
    ⟨.sendString (text "530 clientNotLogged\n"),true⟩,
    ⟨.note (.handled Client.new),()⟩]

theorem guestCalls_served (dirs : Directories) : Replays directories dirs guestCalls dirs := by
  have hlist : IsLine (text "LIST\n") := ⟨text "LIST",by decide,by decide⟩
  exact .step _ _ rfl <| .step _ _ ⟨hlist,rfl⟩ <| .step _ _ rfl <| .step _ _ rfl <|
    .step _ _ rfl <| .none _

theorem guestCalls_run (dirs : Directories) :
    ∃ q : ServerPool Unit, Reaches directories (serverStart namesConfig dirs fun _ => 2) q ∧
      receivedLines (own () q.trace) = [text "LIST\n"] ∧
      ¬ LoginComplete namesConfig (history () q.trace).queries := by
  have hperf : (follow guestCalls (respondClient namesConfig 2)).isSome := by decide
  obtain ⟨q,hq,htrace⟩ := reaches_session hperf (guestCalls_served dirs)
  refine ⟨q,hq,?_,?_⟩
  · rw [htrace]
    rfl
  · rw [htrace]
    change ¬ LoginComplete namesConfig ([]++[text "LIST\n"])
    rw [loginComplete_snoc]
    intro h
    rcases h with h | h
    · exact loginComplete_nil _ h
    · exact absurd h.1 (by decide)

theorem guest_noninterference_list :
    ∃ q₁ q₂ : ServerPool Unit,
      Reaches directories (serverStart namesConfig ∅ fun _ => 2) q₁ ∧
      Reaches directories (serverStart namesConfig {text "foo\n"} fun _ => 2) q₂ ∧
      (bytesSent () q₁.trace <+: bytesSent () q₂.trace ∨
        bytesSent () q₂.trace <+: bytesSent () q₁.trace) ∧
      ∀ q, StepOf directories () q₂ q → q.shared = q₂.shared := by
  obtain ⟨q₁,h₁,hl₁,hg₁⟩ := guestCalls_run ∅
  obtain ⟨q₂,h₂,hl₂,hg₂⟩ := guestCalls_run {text "foo\n"}
  have hboth := guest_noninterference namesConfig_defines () [text "LIST\n"] h₁ h₂
    (hl₁ ▸ List.prefix_refl _) (hl₂ ▸ List.prefix_refl _) hg₁ hg₂
  exact ⟨q₁,q₂,h₁,h₂,hboth.1,hboth.2.2.2⟩

end Workshop.FtpGuest
