import Workshop.FtpLockstep
import Workshop.RunAhead

/-!
# Queries and answers between the two programs

A session meets the directories as the other clients have left them. What it
answers is a list of lines, computed from the client record and the sets it
meets. Over a connection the server sends just these lines and the client
reads them one by one.
-/

set_option autoImplicit false

namespace Workshop.FtpExchange
open Workshop.CMemory Workshop.InteractiveProgram Workshop.ByteChannel Workshop.HalfDuplex
open Workshop.RunAhead Workshop.FtpConfig Workshop.FtpCommand Workshop.FtpDirectories
open Workshop.FtpServer Workshop.FtpNetwork Workshop.FtpNames Workshop.FtpClient
open Workshop.FtpLockstep

/-- `set` is what a call of the session finds and `after` is what follows it,
the calls of other clients included. -/
structure Surroundings (σ : Type) where
  set : σ → Directories
  after : ServerOp → σ → σ

variable {σ : Type}

def Surroundings.answers (E : Surroundings σ) : Shared σ := fun op s =>
  match op with
  | .receiveString => ([],s)
  | .sendString _ => (true,s)
  | .addDirectory d => ((addDirectory (E.set s) d).1,E.after (.addDirectory d) s)
  | .removeDirectory d => ((removeDirectory (E.set s) d).1,E.after (.removeDirectory d) s)
  | .directoriesSize => (directoriesSize (E.set s),E.after .directoriesSize s)
  | .getList => (getList (E.set s),E.after .getList s)
  | .note _ => ((),s)

def alone : Surroundings Directories where
  set s := s
  after op s :=
    match op with
    | .addDirectory d => (addDirectory s d).2
    | .removeDirectory d => (removeDirectory s d).2
    | _ => s

structure Meeting where
  sets : ℕ → Directories
  calls : List ServerOp

/-- Any sets at all, one for each call. -/
def meeting : Surroundings Meeting where
  set s := s.sets 0
  after op s := ⟨fun k => s.sets (k+1),s.calls++[op]⟩

/-- Whatever the session and the others do, the directories have names. -/
structure Surroundings.Named (E : Surroundings σ) (P : σ → Prop) : Prop where
  names : ∀ s, P s → Names (E.set s)
  after : ∀ op s, P s → (∀ d, op = .addDirectory d → IsName d) → P (E.after op s)

theorem alone_named : alone.Named Names where
  names _ h := h
  after op s h hop := by
    cases op with
    | addDirectory d =>
      intro e he
      simp only [alone, addDirectory_eq] at he
      rcases Finset.mem_insert.mp he with rfl | he
      · exact hop e rfl
      · exact h e he
    | removeDirectory d =>
      intro e he
      simp only [alone, removeDirectory_eq] at he
      exact h e (Finset.mem_of_mem_erase he)
    | _ => exact h

theorem meeting_named {Q : Directories → Prop} (h : ∀ s, Q s → Names s) :
    meeting.Named fun s => ∀ k, Q (s.sets k) where
  names _ hs := h _ (hs 0)
  after _ _ hs _ k := hs (k+1)

def afterReply (cfg : Config) (cli : Client) (cmd : Command) : Client :=
  if cli.logged = true ∧ usesDirectories cmd = true then cli
  else match plainReply cfg cli cmd with
    | .ok r => r.after
    | .error _ => cli

def Surroundings.used (E : Surroundings σ) (cli : Client) (cmd : Command) (s : σ) : σ :=
  match cli.logged, cmd with
  | true, .list =>
    if directoriesSize (E.set s) > 0 then E.after .getList (E.after .directoriesSize s)
    else E.after .directoriesSize s
  | true, .mkd d => E.after (.addDirectory d) s
  | true, .rmd d => E.after (.removeDirectory d) s
  | _, _ => s

theorem used_plain (E : Surroundings σ) {cli : Client} {cmd : Command} {s : σ}
    (hplain : cli.logged = false ∨ usesDirectories cmd = false) : E.used cli cmd s = s := by
  cases hl : cli.logged with
  | false => simp only [Surroundings.used, hl]
  | true =>
    have hu : usesDirectories cmd = false := hplain.resolve_left (by simp [hl])
    cases cmd with
    | list => cases hu
    | mkd d => cases hu
    | rmd d => cases hu
    | _ => simp only [Surroundings.used, hl]

theorem used_named {E : Surroundings σ} {P : σ → Prop} (hE : E.Named P) {cli : Client}
    {cmd : Command} {s : σ} (hs : P s)
    (hmkd : cli.logged = true → ∀ d, cmd = .mkd d → IsName d) : P (E.used cli cmd s) := by
  by_cases hplain : cli.logged = false ∨ usesDirectories cmd = false
  · rwa [used_plain E hplain]
  obtain ⟨hl,hu⟩ := not_or.mp hplain
  rw [Bool.not_eq_false] at hl hu
  cases cmd with
  | list =>
    have hsize : P (E.after .directoriesSize s) := hE.after _ s hs fun _ h => by cases h
    simp only [Surroundings.used, hl]
    split
    · exact hE.after _ _ hsize fun _ h => by cases h
    · exact hsize
  | mkd dirname =>
    simp only [Surroundings.used, hl]
    apply hE.after _ s hs
    rintro d ⟨⟩
    exact hmkd hl dirname rfl
  | rmd dirname =>
    simp only [Surroundings.used, hl]
    exact hE.after _ s hs fun _ h => by cases h
  | _ => cases hu

def Surroundings.lines (E : Surroundings σ) (cfg : Config) (cli : Client) (cmd : Command) (s : σ) :
    List Text :=
  answerLines cfg cli cmd (E.set s) (E.set (E.after .directoriesSize s))

theorem afterReply_quit (cfg : Config) (cli : Client) (cmd : Command) {r : Reply}
    (hr : cli.logged = false ∨ usesDirectories cmd = false → plainReply cfg cli cmd = .ok r) :
    (afterReply cfg cli cmd).quit = (cli.quit || cmd = .quit) := by
  rw [afterReply]
  by_cases hd : cli.logged = true ∧ usesDirectories cmd = true
  · have hne : cmd ≠ .quit := by
      rintro rfl
      cases hd.2
    simp [hd, hne]
  · have hplain : cli.logged = false ∨ usesDirectories cmd = false := by
      rcases not_and_or.mp hd with h | h
      · exact .inl (by simpa using h)
      · exact .inr (by simpa using h)
    rw [if_neg hd, hr hplain]
    exact plainReply_quit (hr hplain)

section Transfers
variable {I : Interface} {α : Type}

theorem sends_attempt {p q : Program (net I) Halt α} {bs : Text} (h : Sends p bs q)
    (handler : Halt → Program (net I) Halt α) :
    Sends (p.attempt handler) bs (q.attempt handler) := by
  induction h with
  | done p => exact .done _
  | send hne hbuf _ ih => exact .send hne hbuf fun count hle hpos => ih count hle hpos

theorem takes_attempt {p q : Program (net I) Halt α} {bs : Text} (h : Takes p bs q)
    (handler : Halt → Program (net I) Halt α) :
    Takes (p.attempt handler) bs (q.attempt handler) := by
  induction h with
  | done p => exact .done _
  | recv hpos hlen _ ih => exact .recv hpos hlen fun cs hle hne hpre => ih cs hle hne hpre

theorem sendString_sends (t : Text) :
    Sends (protocolSendString t : Program (net I) Halt Unit) (transmitted t) (.ret ()) :=
  sends_last (sendLoop_sends (transmitted t)) rfl

theorem receiveStep_takes (str : Text) (aux : Vector UInt8 1)
    (haux : getElem aux 0 Nat.one_pos ≠ newline) (b : UInt8) :
    Takes (receiveStep (str,aux) : Program (net I) Halt ((Text × Vector UInt8 1) ⊕ Text)) [b]
      (.ret (.inl (str++[b],#v[b]))) := by
  have hone : Takes (socketReceive 1 aux : Program (net I) Halt (ℤ × Vector UInt8 1)) [b]
      (.ret (1,#v[b])) := by
    rw [← overwrite_one aux b]
    exact takes_last (recvLoop_takes 1 aux 0 [b] rfl le_rfl) rfl
  rw [receiveStep, if_neg haux]
  exact takes_last hone rfl

theorem body_takes (body : Text) (hbody : newline ∉ body) (n : ℕ) (str : Text)
    (aux : Vector UInt8 1) (haux : getElem aux 0 Nat.one_pos ≠ newline) :
    ∃ aux' : Vector UInt8 1, getElem aux' 0 Nat.one_pos ≠ newline ∧
      Takes (Program.iterate .running receiveStep (body.length+n) (str,aux) :
          Program (net I) Halt Text) body
        (Program.iterate .running receiveStep n (str++body,aux')) := by
  induction body generalizing str aux with
  | nil =>
    refine ⟨aux,haux,?_⟩
    rw [List.length_nil, Nat.zero_add, List.append_nil]
    exact .done _
  | cons b body ih =>
    obtain ⟨hb,hrest⟩ := not_or.mp (List.mem_cons.not.mp hbody)
    obtain ⟨aux',haux',htakes⟩ := ih hrest (str++[b]) #v[b] (Ne.symm hb)
    refine ⟨aux',haux',?_⟩
    rw [List.append_assoc, List.singleton_append] at htakes
    rw [List.length_cons, Nat.add_right_comm, Program.iterate]
    exact takes_then (receiveStep_takes str aux haux b) htakes

theorem receiveString_takes {line : Text} (hline : IsLine line) {n : ℕ} (hn : line.length < n) :
    Takes (protocolReceiveString n : Program (net I) Halt Text) line (.ret line) := by
  obtain ⟨body,hbody,rfl⟩ := hline
  rw [List.length_append, List.length_singleton] at hn
  obtain ⟨m,rfl⟩ : ∃ m, n = body.length+(m+2) := ⟨n-body.length-2,by omega⟩
  obtain ⟨aux,haux,htakes⟩ := body_takes (I := I) body hbody (m+2) [] #v[0] aux_start
  apply takes_trans htakes
  rw [List.nil_append, Program.iterate]
  apply takes_last (receiveStep_takes body aux haux newline)
  show Program.iterate .running receiveStep (m+1) (body++[newline],#v[newline]) = _
  rw [Program.iterate, receiveStep]
  rfl

theorem receiveString_waiting {n : ℕ} (hn : 0 < n) :
    Waiting (protocolReceiveString n : Program (net I) Halt Text) := by
  obtain ⟨n,rfl⟩ := Nat.exists_eq_succ_of_ne_zero (Nat.ne_of_gt hn)
  have hrecv : Waiting (recvLoop 1 #v[0] 0 : Program (net I) Halt (ℕ × Vector UInt8 1)) := by
    rw [recvLoop, if_pos (by decide)]
    exact ⟨1,_,Nat.one_pos,rfl⟩
  rw [protocolReceiveString, Program.iterate, receiveStep, if_neg aux_start, socketReceive]
  exact waiting_bind (waiting_bind (waiting_bind hrecv _) _) _

end Transfers

def serving (n : ℕ) (p : Session Unit) : Program (net server) Halt Unit :=
  (p.attempt catchException).interp (overSocket n)

def serverLoop (cfg : Config) (n m : ℕ) (cli : Client) : Program (net server) Halt Unit :=
  serving n (Program.iterate .running (serveQuery cfg) m cli >>= fun _ => .ret ())

theorem respondClient_serving (cfg : Config) (n : ℕ) :
    (respondClient cfg n).interp (overSocket n) = serving n (sendHello cfg >>= fun _ =>
      Program.iterate .running (serveQuery cfg) n Client.new >>= fun _ => .ret ()) := rfl

theorem serving_send (n : ℕ) (t : Text) (f : Unit → Session Unit) :
    Sends (serving n (sendString t >>= f)) (transmitted t) (serving n (f ())) := by
  have hsend : Sends (overSocket n (.sendString t)) (transmitted t) (.ret true) :=
    sends_attempt (sends_last (sendString_sends t) rfl) _
  exact sends_last hsend rfl

section Server
variable {cfg : Config} {n m : ℕ} {cli : Client}

theorem serverLoop_waiting (hcli : cli.quit = false) (hn : 0 < n) :
    Waiting (serverLoop cfg n (m+1) cli) := by
  rw [serverLoop, serving, Program.iterate, serveQuery, hcli, if_neg (by simp)]
  exact waiting_bind (receiveString_waiting hn) _

theorem serverLoop_quit (hcli : cli.quit = true) : serverLoop cfg n (m+1) cli = .ret () := by
  rw [serverLoop, Program.iterate, serveQuery, if_pos hcli]
  rfl

theorem serverLoop_takes (hcli : cli.quit = false) {query : Text} (hquery : IsLine query)
    (hn : query.length < n) (hlen : 1 < query.length) :
    Takes (serverLoop cfg n (m+1) cli) query (serving n (answerQuery cfg query cli >>= fun cli =>
      Program.iterate .running (serveQuery cfg) m cli >>= fun _ => .ret ())) := by
  rw [serverLoop, serving, Program.iterate, serveQuery, hcli, if_neg (by simp)]
  apply takes_last (receiveString_takes hquery hn)
  dsimp only
  rw [if_pos hlen]
  have hbody (k : Client ⊕ Client → Session Client) :
      (answerQuery cfg query cli >>= fun cli => pure (.inl cli)) >>= k >>= (fun _ => .ret ()) =
        answerQuery cfg query cli >>= fun cli => k (.inl cli) >>= fun _ => .ret () := by
    rw [Program.bind_bind, Program.bind_bind]
    rfl
  exact congrArg (serving n) (hbody _)

theorem serverLoop_empty (hcli : cli.quit = false) (hn : 1 < n) :
    Takes (serverLoop cfg n (m+2) cli) [newline] (.ret ()) := by
  have hline : IsLine [newline] := ⟨[],by simp,rfl⟩
  have hquit : serverLoop cfg n (m+1) { cli with quit := true } = .ret () := serverLoop_quit rfl
  rw [← hquit, serverLoop, serving, Program.iterate, serveQuery, hcli, if_neg (by simp)]
  exact takes_last (receiveString_takes hline hn) rfl

end Server

section Replies
variable (E : Surroundings σ) {cfg : Config} (n : ℕ) (s : σ) {cli : Client}

theorem emits_message {id message : Text} (hk : cfg.Defines message)
    (hfit : (reply cfg id message).length < 2^31) (f : Client → Session Unit) :
    Emits (answering E.answers) (serving n (sendMessage cfg id message cli >>= f)) s
      (reply cfg id message) (serving n (f cli)) s := by
  have hsend := serving_send n (reply cfg id message) fun _ => f cli
  rw [transmitted_small hfit] at hsend
  rw [sendMessage_eq hk, Program.bind_bind]
  exact emits_sends hsend

theorem emits_directory {id message dirname : Text} (hk : cfg.Defines message)
    (hd : dirname ≠ []) (hfit : (replyDir cfg id dirname message).length < 2^31)
    (f : Client → Session Unit) :
    Emits (answering E.answers) (serving n (sendDirectory cfg id dirname message cli >>= f)) s
      (replyDir cfg id dirname message) (serving n (f cli)) s := by
  have hsend := serving_send n (replyDir cfg id dirname message) fun _ => f cli
  rw [transmitted_small hfit] at hsend
  rw [sendDirectory_eq hk id hd, Program.bind_bind]
  exact emits_sends hsend

theorem emits_list (f : Unit → Session Unit) :
    Emits (answering E.answers) (serving n (sendList >>= f)) s
      (if directoriesSize (E.set s) > 0 then
        transmitted (getList (E.set (E.after .directoriesSize s))) else [])
      (serving n (f ()))
      (if directoriesSize (E.set s) > 0 then E.after .getList (E.after .directoriesSize s)
        else E.after .directoriesSize s) := by
  have hsize : answering E.answers .directoriesSize s =
      (.ok (directoriesSize (E.set s)),E.after .directoriesSize s) := rfl
  apply Emits.other hsize
  change Emits _ (serving n ((if directoriesSize (E.set s) > 0 then
    .call .getList fun list => sendString list else .ret ()) >>= f)) _ _ _ _
  by_cases hpos : directoriesSize (E.set s) > 0
  · have hlist : answering E.answers .getList (E.after .directoriesSize s) =
        (.ok (getList (E.set (E.after .directoriesSize s))),
          E.after .getList (E.after .directoriesSize s)) := rfl
    rw [if_pos hpos, if_pos hpos, if_pos hpos]
    exact .other hlist (emits_sends (serving_send n _ f))
  · rw [if_neg hpos, if_neg hpos, if_neg hpos]
    exact .done _ _

section Commands
variable (hall : cfg.DefinesAll)
include hall

theorem emits_plain {cmd : Command} (hplain : cli.logged = false ∨ usesDirectories cmd = false)
    (hfit : (answerLine cfg cli (E.set s) cmd).length < 2^31) (f : Client → Session Unit) :
    Emits (answering E.answers) (serving n (sendResponse cfg cli cmd >>= f)) s
      (answerLine cfg cli (E.set s) cmd) (serving n (f (afterReply cfg cli cmd))) s := by
  obtain ⟨r,hr⟩ := plainReply_total (hall keyUser (by simp [messageKeys]))
    (hall keyPass (by simp [messageKeys])) cli cmd
  have hline := (answer_plain (E.set s) hplain hr).1
  have hafter : afterReply cfg cli cmd = r.after := by
    have hd : ¬ (cli.logged = true ∧ usesDirectories cmd = true) := by
      rintro ⟨hl,hu⟩
      simp [hl, hu] at hplain
    rw [afterReply, if_neg hd, hr]
  rw [hline] at hfit ⊢
  rw [sendResponse_plain cfg cli cmd hplain, hr, hafter]
  exact emits_message E n s (hall r.message (plainReply_key hr)) hfit f

theorem emits_lists (hl : cli.logged = true) (hw : Whole cfg cli .list (E.set s)
    (E.set (E.after .directoriesSize s))) (f : Client → Session Unit) :
    Emits (answering E.answers) (serving n (sendResponse cfg cli .list >>= f)) s
      (E.lines cfg cli .list s).flatten (serving n (f cli)) (E.used cli .list s) := by
  have hlists : Lists cli .list := ⟨hl,rfl⟩
  rw [Whole, if_pos hlists] at hw
  obtain ⟨hbegin,hend,hmid⟩ := hw
  rw [← reply_size cfg (show idListBegin.length = 3 by decide)] at hbegin
  rw [← reply_size cfg (show idListEnd.length = 3 by decide)] at hend
  have hused : E.used cli .list s = if directoriesSize (E.set s) > 0 then
      E.after .getList (E.after .directoriesSize s) else E.after .directoriesSize s := by
    simp only [Surroundings.used, hl]
  rw [Surroundings.lines, answerLines, if_pos hlists, List.cons_append, List.flatten_cons,
    List.flatten_append, List.flatten_singleton, ← entries_sent hmid, hused, sendResponse,
    listSendResponse, whenLogged, if_pos hl, Program.bind_bind]
  apply emits_trans (emits_message E n s (hall msgListBegin (by simp [messageKeys])) hbegin _)
  rw [Program.bind_bind]
  apply emits_trans (emits_list E n s _)
  exact emits_message E n _ (hall msgListEnd (by simp [messageKeys])) hend f

theorem emits_mkd (hl : cli.logged = true) {dirname : Text} (hname : IsName dirname)
    (hfit : (answerLine cfg cli (E.set s) (.mkd dirname)).length < 2^31)
    (f : Client → Session Unit) :
    Emits (answering E.answers) (serving n (sendResponse cfg cli (.mkd dirname) >>= f)) s
      (answerLine cfg cli (E.set s) (.mkd dirname)) (serving n (f cli))
      (E.after (.addDirectory dirname) s) := by
  have hne : dirname ≠ [] := by
    intro hnil
    exact isName_nil (hnil ▸ hname)
  have hadd : answering E.answers (.addDirectory dirname) s =
      (.ok (addDirectory (E.set s) dirname).1,E.after (.addDirectory dirname) s) := rfl
  rw [(answer_mkd cfg (E.set s) dirname hl).1] at hfit ⊢
  rw [sendResponse, mkdSendResponse, whenLogged, if_pos hl]
  apply Emits.other hadd
  change Emits _ (serving n ((if (addDirectory (E.set s) dirname).1 = true then
    sendDirectory cfg idMkdSuccess dirname msgMkdSuccess cli
    else sendMessage cfg idMkdFailure msgMkdFailure cli) >>= f)) _ _ _ _
  by_cases hmem : dirname ∈ E.set s
  · have hfound : ¬ (addDirectory (E.set s) dirname).1 = true := by simp [addDirectory, hmem]
    have hline : mkdAnswer cfg dirname (dirname ∉ E.set s) =
        reply cfg idMkdFailure msgMkdFailure := by simp [mkdAnswer, hmem]
    rw [hline] at hfit ⊢
    rw [if_neg hfound]
    exact emits_message E n _ (hall msgMkdFailure (by simp [messageKeys])) hfit f
  · have hmade : (addDirectory (E.set s) dirname).1 = true := by simp [addDirectory, hmem]
    have hline : mkdAnswer cfg dirname (dirname ∉ E.set s) =
        replyDir cfg idMkdSuccess dirname msgMkdSuccess := by simp [mkdAnswer, hmem]
    rw [hline] at hfit ⊢
    rw [if_pos hmade]
    exact emits_directory E n _ (hall msgMkdSuccess (by simp [messageKeys])) hne hfit f

theorem emits_rmd (hl : cli.logged = true) {dirname : Text} (hnames : Names (E.set s))
    (hfit : (answerLine cfg cli (E.set s) (.rmd dirname)).length < 2^31)
    (f : Client → Session Unit) :
    Emits (answering E.answers) (serving n (sendResponse cfg cli (.rmd dirname) >>= f)) s
      (answerLine cfg cli (E.set s) (.rmd dirname)) (serving n (f cli))
      (E.after (.removeDirectory dirname) s) := by
  have hremove : answering E.answers (.removeDirectory dirname) s =
      (.ok (removeDirectory (E.set s) dirname).1,E.after (.removeDirectory dirname) s) := rfl
  rw [(answer_rmd cfg (E.set s) dirname hl).1] at hfit ⊢
  rw [sendResponse, rmdSendResponse, whenLogged, if_pos hl]
  apply Emits.other hremove
  change Emits _ (serving n ((if (removeDirectory (E.set s) dirname).1 = true then
    sendDirectory cfg idRmdSuccess dirname msgRmdSuccess cli
    else sendMessage cfg idRmdFailure msgRmdFailed cli) >>= f)) _ _ _ _
  by_cases hmem : dirname ∈ E.set s
  · have hne : dirname ≠ [] := by
      intro hnil
      exact isName_nil (hnil ▸ hnames dirname hmem)
    have hfound : (removeDirectory (E.set s) dirname).1 = true := by simp [removeDirectory, hmem]
    have hline : rmdAnswer cfg dirname (dirname ∈ E.set s) =
        replyDir cfg idRmdSuccess dirname msgRmdSuccess := by simp [rmdAnswer, hmem]
    rw [hline] at hfit ⊢
    rw [if_pos hfound]
    exact emits_directory E n _ (hall msgRmdSuccess (by simp [messageKeys])) hne hfit f
  · have hgone : ¬ (removeDirectory (E.set s) dirname).1 = true := by simp [removeDirectory, hmem]
    have hline : rmdAnswer cfg dirname (dirname ∈ E.set s) =
        reply cfg idRmdFailure msgRmdFailed := by simp [rmdAnswer, hmem]
    rw [hline] at hfit ⊢
    rw [if_neg hgone]
    exact emits_message E n _ (hall msgRmdFailed (by simp [messageKeys])) hfit f

end Commands

end Replies

section Responses
variable {E : Surroundings σ} {cfg : Config} (n : ℕ) {s : σ} {cli : Client} {P : σ → Prop}
  (hE : E.Named P) (hs : P s) (hall : cfg.DefinesAll)
  (hvalues : ∀ key ∈ messageKeys, IsLine (cfg.value key))
include hE hs hall hvalues

/-- A command is answered with its lines, if they are not too long for `Socket::send`. -/
theorem emits_response {cmd : Command}
    (hmkd : cli.logged = true → ∀ d, cmd = .mkd d → IsName d)
    (hw : Whole cfg cli cmd (E.set s) (E.set (E.after .directoriesSize s)))
    (f : Client → Session Unit) :
    Emits (answering E.answers) (serving n (sendResponse cfg cli cmd >>= f)) s
      (E.lines cfg cli cmd s).flatten (serving n (f (afterReply cfg cli cmd)))
      (E.used cli cmd s) := by
  by_cases hlists : Lists cli cmd
  · obtain ⟨hl,rfl⟩ := hlists
    have hafter : afterReply cfg cli .list = cli := if_pos ⟨hl,rfl⟩
    rw [hafter]
    exact emits_lists E n s hall hl hw f
  have hline := answer_plain_line hvalues hall hlists (names_lined (hE.names s hs)) hmkd
  have hlines : (E.lines cfg cli cmd s).flatten = answerLine cfg cli (E.set s) cmd := by
    rw [Surroundings.lines, answerLines, if_neg hlists, List.flatten_singleton]
  rw [Whole, if_neg hlists, ← hline.size] at hw
  rw [hlines]
  by_cases hplain : cli.logged = false ∨ usesDirectories cmd = false
  · rw [used_plain E hplain]
    exact emits_plain E n s hall hplain hw f
  · obtain ⟨hl,hu⟩ := not_or.mp hplain
    rw [Bool.not_eq_false] at hl hu
    have hafter : afterReply cfg cli cmd = cli := if_pos ⟨hl,hu⟩
    rw [hafter]
    cases cmd with
    | list => exact absurd ⟨hl,rfl⟩ hlists
    | mkd dirname =>
      have hused : E.used cli (.mkd dirname) s = E.after (.addDirectory dirname) s := by
        simp only [Surroundings.used, hl]
      rw [hused]
      exact emits_mkd E n s hall hl (hmkd hl dirname rfl) hw f
    | rmd dirname =>
      have hused : E.used cli (.rmd dirname) s = E.after (.removeDirectory dirname) s := by
        simp only [Surroundings.used, hl]
      rw [hused]
      exact emits_rmd E n s hall hl (hE.names s hs) hw f
    | _ => cases hu

end Responses

end Workshop.FtpExchange
