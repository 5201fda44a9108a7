import Workshop.FtpShared

/-!
# Who is logged in

The login flag of a connection is a function of the queries handled on it: a
`PASS` with the configured password right after the configured user name,
where only other commands than `USER` may stand between the two.
-/

set_option autoImplicit false

namespace Workshop.FtpLogin
open Workshop.CMemory Workshop.InteractiveProgram Workshop.ThreadPool
open Workshop.FtpConfig Workshop.FtpCommand Workshop.FtpDirectories Workshop.FtpServer
open Workshop.FtpContract Workshop.FtpShared

def userArgument (query : Text) : Option Text :=
  match createCommand query with
  | .ok (.user user) => some user
  | _ => none

def lastUser (queries : List Text) : Option Text := (queries.filterMap userArgument).getLast?

/-- Some query gives the password while the latest user name is the right one. -/
def LoginComplete (cfg : Config) (queries : List Text) : Prop :=
  ∃ before query after, queries = before++query::after ∧
    createCommand query = .ok (.pass (cfg.value keyPass)) ∧
    lastUser before = some (cfg.value keyUser)

theorem lastUser_snoc (queries : List Text) (query : Text) :
    lastUser (queries++[query]) = (userArgument query).or (lastUser queries) := by
  rw [lastUser, List.filterMap_append, List.getLast?_append, lastUser]
  cases h : userArgument query <;> simp [h]

theorem loginComplete_nil (cfg : Config) : ¬ LoginComplete cfg [] := by
  intro h
  obtain ⟨before,q,after,h,_⟩ := h
  simp at h

theorem loginComplete_snoc (cfg : Config) (queries : List Text) (query : Text) :
    LoginComplete cfg (queries++[query]) ↔ LoginComplete cfg queries ∨
      (createCommand query = .ok (.pass (cfg.value keyPass)) ∧
        lastUser queries = some (cfg.value keyUser)) := by
  constructor
  · intro h
    obtain ⟨before,q,after,hq,hpass,huser⟩ := h
    rcases List.eq_nil_or_concat after with rfl | ⟨after,last,rfl⟩
    · obtain ⟨rfl,hlast⟩ := List.append_inj' hq rfl
      rw [List.singleton_inj] at hlast
      exact .inr ⟨hlast ▸ hpass,huser⟩
    · left
      rw [List.concat_eq_append, ← List.cons_append, ← List.append_assoc] at hq
      exact ⟨before,q,after,(List.append_inj' hq rfl).1,hpass,huser⟩
  · intro h
    rcases h with ⟨before,q,after,rfl,hpass,huser⟩ | ⟨hpass,huser⟩
    · exact ⟨before,q,after++[query],by simp,hpass,huser⟩
    · exact ⟨queries,query,[],rfl,hpass,huser⟩

theorem loginComplete_append {cfg : Config} {queries : List Text}
    (h : LoginComplete cfg queries) (more : List Text) : LoginComplete cfg (queries++more) := by
  obtain ⟨before,q,after,rfl,hpass,huser⟩ := h
  exact ⟨before,q,after++more,by simp,hpass,huser⟩

structure Follows (cfg : Config) (cli : Client) (queries : List Text) : Prop where
  logged : cli.logged = true ↔ LoginComplete cfg queries
  user : cli.possibleUser = (lastUser queries).getD []

theorem follows_new (cfg : Config) : Follows cfg Client.new [] := by
  constructor
  · constructor
    · intro h
      cases h
    · intro h
      exact absurd h (loginComplete_nil cfg)
  · rfl

theorem user_matches {cfg : Config} (hu : cfg.Defines keyUser) {cli : Client}
    {queries : List Text} (h : Follows cfg cli queries) :
    cli.possibleUser = cfg.value keyUser ↔ lastUser queries = some (cfg.value keyUser) := by
  rw [h.user]
  obtain ⟨body,hbody⟩ := value_lined hu
  cases lastUser queries with
  | none => simp [hbody]
  | some u => simp

theorem follows_step {cfg : Config} (hu : cfg.Defines keyUser) (hp : cfg.Defines keyPass)
    {cli : Client} {queries : List Text} (h : Follows cfg cli queries) {query : Text}
    {cmd : Command} (hc : createCommand query = .ok cmd) {r : Reply}
    (hr : plainReply cfg cli cmd = .ok r) : Follows cfg r.after (queries++[query]) := by
  have hsnoc := loginComplete_snoc cfg queries query
  have hlast := lastUser_snoc queries query
  rw [hc] at hsnoc
  rw [userArgument, hc] at hlast
  by_cases huser : ∃ u, cmd = .user u
  · obtain ⟨u,rfl⟩ := huser
    cases hr
    constructor
    · rw [hsnoc]
      simpa using h.logged
    · rw [hlast]
      rfl
  · by_cases hpass : ∃ p, cmd = .pass p
    · obtain ⟨p,rfl⟩ := hpass
      rw [plainReply, validCredentials_eq hu hp, ok_bind, Except.ok.injEq] at hr
      subst hr
      by_cases hvalid : cli.possibleUser = cfg.value keyUser ∧ p = cfg.value keyPass
      · rw [decide_eq_true hvalid]
        constructor
        · rw [hsnoc]
          have hm := (user_matches hu h).mp hvalid.1
          simp [hvalid.2, hm]
        · rw [hlast]
          exact h.user
      · rw [decide_eq_false hvalid]
        constructor
        · rw [hsnoc]
          have hm := user_matches hu h
          rw [← h.logged, ← hm]
          constructor
          · intro hl
            exact .inl hl
          · intro hor
            rcases hor with hl | hl
            · exact hl
            · have hpeq : p = cfg.value keyPass := by simpa using hl.1
              exact absurd ⟨hl.2,hpeq⟩ hvalid
        · rw [hlast]
          exact h.user
    · rw [not_exists] at huser hpass
      obtain ⟨hl,hpu⟩ := plainReply_login hr huser hpass
      constructor
      · rw [hl, hsnoc, h.logged]
        constructor
        · intro hl
          exact .inl hl
        · intro hor
          rcases hor with hl | hl
          · exact hl
          · exact absurd (Except.ok.inj hl.1) (hpass _)
      · rw [hpu, hlast, h.user]
        cases cmd with
        | user u => exact absurd rfl (huser u)
        | _ => rfl

/-- At every handled query, and at one just received, the login flag is what the
queries handled until then say. -/
structure Faithful (cfg : Config) (h : History) : Prop where
  handled : ∀ before query cli after, h.handled = before++(query,cli)::after →
    (cli.logged = true ↔ LoginComplete cfg (before.map Prod.fst++[query]))
  pending : ∀ cli query, h.pending = some (cli,query) →
    (cli.logged = true ↔ LoginComplete cfg h.queries)

theorem faithful_empty (cfg : Config) : Faithful cfg .empty := by
  constructor
  · intro before query cli after h
    simp [History.empty] at h
  · intro cli query h
    cases h

theorem faithful_received {cfg : Config} {h : History} (hf : Faithful cfg h) {cli : Client}
    (hcli : Follows cfg cli h.queries) (query : Text) :
    Faithful cfg { h with pending := some (cli,query) } := by
  constructor
  · exact hf.handled
  · intro cli' query' hp
    cases hp
    exact hcli.logged

theorem faithful_handled {cfg : Config} {h : History} (hf : Faithful cfg h) {cli : Client}
    {query : Text} (hcli : Follows cfg cli (h.queries++[query])) :
    Faithful cfg ⟨none,h.handled++[(query,cli)]⟩ := by
  constructor
  · intro before query' cli' after hsplit
    rcases List.eq_nil_or_concat after with rfl | ⟨after,last,rfl⟩
    · obtain ⟨rfl,hlast⟩ := List.append_inj' hsplit rfl
      rw [List.singleton_inj, Prod.mk.injEq] at hlast
      rw [← hlast.1, ← hlast.2]
      exact hcli.logged
    · rw [List.concat_eq_append, ← List.cons_append, ← List.append_assoc] at hsplit
      exact hf.handled before query' cli' after (List.append_inj' hsplit rfl).1
  · intro cli' query' hp
    cases hp

def login (cfg : Config) : Contract server History where
  may h _ := Faithful cfg h
  rely _ _ _ := True
  view h op r := observe h op r

def AtTurn (cfg : Config) (cli : Client) (h : History) : Prop :=
  Faithful cfg h ∧ Follows cfg cli h.queries

theorem login_quiet {cfg : Config} {h : History} (hf : Faithful cfg h) (cmd : Command) :
    Quiet (login cfg) h cmd := by
  intro op hop
  exact ⟨hf,fun r _ => observe_serving hop h r⟩

theorem login_answer {cfg : Config} (hu : cfg.Defines keyUser) (hp : cfg.Defines keyPass)
    {cli : Client} {h : History} (ht : AtTurn cfg cli h) {query : Text} (hlen : 1 < query.length) :
    Keeps (login cfg) (AtTurn cfg) (fun _ h => Faithful cfg h) (answerQuery cfg query cli) h := by
  have hne : query ≠ [] := by
    intro hnil
    simp [hnil] at hlen
  obtain ⟨cmd,hcmd⟩ := create_total hne
  have hreceived := faithful_received ht.1 ht.2 query
  apply keeps_mono _ _ (keeps_answer cfg hcmd ht.1 (login_quiet hreceived cmd)
    (fun _ _ => hreceived))
  · intro cli' h' hdone
    obtain ⟨r,hr,rfl,rfl⟩ := hdone
    have hstep := follows_step hu hp ht.2 hcmd hr
    constructor
    · exact faithful_handled ht.1 hstep
    · change Follows cfg r.after (List.map Prod.fst (h.handled++[(query,r.after)]))
      rw [List.map_append]
      exact hstep
  · intro e h' hstop
    rw [hstop.1]
    exact hreceived

theorem login_session {cfg : Config} (hu : cfg.Defines keyUser) (hp : cfg.Defines keyPass)
    (n : ℕ) : Keeps (login cfg) (fun _ h => Faithful cfg h) (fun _ h => Faithful cfg h)
      (respondClient cfg n) .empty := by
  have hstart : AtTurn cfg Client.new .empty := ⟨faithful_empty cfg,follows_new cfg⟩
  apply keeps_session (J := AtTurn cfg)
  · apply keeps_mono _ _ (keeps_sendHello cfg (login_quiet hstart.1 .invalid))
    · intro _ h heq
      rw [heq]
      exact hstart
    · intro e h heq
      rw [heq.1]
      exact hstart.1
  · intro h ht
    apply keeps_loop
    · intro cli h ht _
      exact ht.1
    · intro cli h query ht _ _ hlen
      exact login_answer hu hp ht hlen
    · intro cli h query ht _ _ _
      exact ⟨ht.1,ht.2.logged,ht.2.user⟩
    · intro cli h ht
      exact ht.1
    · exact ht
  · intro cli h ht _
    exact ht.1
  · intro h hf
    exact hf

variable {ι : Type} [DecidableEq ι]

theorem run_faithful {cfg : Config} (hu : cfg.Defines keyUser) (hp : cfg.Defines keyPass)
    {dirs : Directories} {n : ι → ℕ} {q : ServerPool ι}
    (h : Reaches directories (serverStart cfg dirs n) q) (i : ι) :
    Faithful cfg (history i q.trace) := by
  have hkeeps := keeps_performs (reaches_performs h i) (login_session hu hp (n i))
    (relied_trivial (fun _ _ _ => trivial) _ _)
  exact keeps_now (G := Faithful cfg) (fun _ _ h => h) (fun _ _ h => h) (fun _ _ h => h) hkeeps

/-- In every run of the server, a connection is logged in after the queries it
has handled exactly when these complete a login, and it still is, or is not,
when its next query arrives. -/
theorem logged_iff_login_complete {cfg : Config} (hu : cfg.Defines keyUser)
    (hp : cfg.Defines keyPass) (dirs : Directories) (n : ι → ℕ) {q : ServerPool ι}
    (h : Reaches directories (serverStart cfg dirs n) q) (i : ι) :
    (∀ before query cli after, (history i q.trace).handled = before++(query,cli)::after →
      (cli.logged = true ↔ LoginComplete cfg (before.map Prod.fst++[query]))) ∧
    (∀ cli query, (history i q.trace).pending = some (cli,query) →
      (cli.logged = true ↔ LoginComplete cfg (history i q.trace).queries)) := by
  have hfaithful := run_faithful hu hp h i
  constructor
  · exact hfaithful.handled
  · exact hfaithful.pending

def loginCalls : List (Event server) :=
  [⟨.sendString (text "220 newClient\n"),true⟩,
    ⟨.receiveString,text "USER user\n"⟩,
    ⟨.note (.received ⟨false,false,[]⟩ (text "USER user\n")),()⟩,
    ⟨.sendString (text "331 passRequired\n"),true⟩,
    ⟨.note (.handled ⟨false,false,text "user\n"⟩),()⟩,
    ⟨.receiveString,text "PASS password\n"⟩,
    ⟨.note (.received ⟨false,false,text "user\n"⟩ (text "PASS password\n")),()⟩,
    ⟨.sendString (text "230 loginSuccess\n"),true⟩,
    ⟨.note (.handled ⟨true,false,text "user\n"⟩),()⟩]

theorem loginCalls_performed : (follow loginCalls (respondClient namesConfig 3)).isSome := by
  decide

theorem loginCalls_served : Replays directories ∅ loginCalls ∅ := by
  have huser : IsLine (text "USER user\n") := ⟨text "USER user",by decide,by decide⟩
  have hpass : IsLine (text "PASS password\n") := ⟨text "PASS password",by decide,by decide⟩
  exact .step _ _ rfl <| .step _ _ ⟨huser,rfl⟩ <| .step _ _ rfl <| .step _ _ rfl <|
    .step _ _ rfl <| .step _ _ ⟨hpass,rfl⟩ <| .step _ _ rfl <| .step _ _ rfl <|
    .step _ _ rfl <| .none _

theorem logged_iff_login_complete_run :
    ∃ q : ServerPool Unit,
      Reaches directories (serverStart namesConfig ∅ fun _ => 3) q ∧
      (history () q.trace).queries = [text "USER user\n",text "PASS password\n"] ∧
      LoginComplete namesConfig [text "USER user\n",text "PASS password\n"] := by
  obtain ⟨q,hq,htrace⟩ := reaches_session loginCalls_performed loginCalls_served
  have hhandled : (history () q.trace).handled =
      [(text "USER user\n",⟨false,false,text "user\n"⟩)]++
        (text "PASS password\n",⟨true,false,text "user\n"⟩)::[] := by
    rw [htrace]
    rfl
  have hlogin := (logged_iff_login_complete (by decide) (by decide) ∅ (fun _ => 3) hq ()).1
    _ _ _ _ hhandled
  refine ⟨q,hq,?_,hlogin.mp rfl⟩
  rw [History.queries, hhandled]
  rfl

end Workshop.FtpLogin
