import Workshop.FtpDirectories
import Workshop.InteractiveProgram

/-!
# Sessions of the file server

`respond_client` is a program over the calls it makes on its surroundings:
one text received or sent by the protocol, and the four operations that hold
the mutex of the directories. `note` is not a call of the source. It marks in
the record of a run where a query is handed to `respond_query` and where that
function returns, with the client record at these points.
-/

set_option autoImplicit false

namespace Workshop.FtpServer
open Workshop.CMemory Workshop.InteractiveProgram Workshop.FtpConfig Workshop.FtpCommand

structure Client where
  logged : Bool
  quit : Bool
  possibleUser : Text
  deriving DecidableEq, Repr

def Client.new : Client := ⟨false,false,[]⟩

inductive Note where
  | received (cli : Client) (query : Text)
  | handled (cli : Client)
  deriving DecidableEq, Repr

inductive ServerOp where
  | receiveString
  | sendString (cmd : Text)
  | addDirectory (directory : Text)
  | removeDirectory (directory : Text)
  | directoriesSize
  | getList
  | note (n : Note)
  deriving DecidableEq

/-- `sendString` answers whether the call returned, without an exception. -/
abbrev ServerRes : ServerOp → Type
  | .receiveString => Text
  | .sendString _ => Bool
  | .addDirectory _ => Bool
  | .removeDirectory _ => Bool
  | .directoriesSize => ℤ
  | .getList => Text
  | .note _ => Unit

abbrev server : Interface := ⟨ServerOp,ServerRes⟩

abbrev Session (α : Type) := Program server Halt α

def sendString (cmd : Text) : Session Unit :=
  .call (.sendString cmd) fun returned => if returned then .ret () else .fail .thrown

def sendMessage (cfg : Config) (id message : Text) (cli : Client) : Session Client := do
  let cmd ← Program.lift (formatCmd id message cfg)
  sendString cmd
  pure cli

/-- The reply that names a directory. -/
def sendDirectory (cfg : Config) (id dirname message : Text) (cli : Client) :
    Session Client := do
  let cmd ← Program.lift (formatCmdDir id dirname message cfg)
  sendString cmd
  pure cli

def whenLogged (cfg : Config) (cli : Client) (reply : Session Client) : Session Client :=
  if cli.logged then reply else sendMessage cfg idNotLogged msgNotLogged cli

def userSendResponse (cfg : Config) (possibleUser : Text) (cli : Client) : Session Client :=
  sendMessage cfg idPassRequired msgPassRequired { cli with possibleUser := possibleUser }

/-- The password is looked up only when the user name matches. -/
def validCredentials (cfg : Config) (possiblePass : Text) (cli : Client) : Except Halt Bool := do
  let user ← cfg.getMessage keyUser
  if cli.possibleUser = user then do
    let pass ← cfg.getMessage keyPass
    .ok (possiblePass = pass)
  else .ok false

def passSendResponse (cfg : Config) (possiblePass : Text) (cli : Client) : Session Client := do
  let valid ← Program.lift (validCredentials cfg possiblePass cli)
  if valid then sendMessage cfg idLoginSuccess msgLoginSuccess { cli with logged := true }
  else sendMessage cfg idLoginFailed msgLoginFailed cli

def systSendResponse (cfg : Config) (cli : Client) : Session Client :=
  whenLogged cfg cli (sendMessage cfg idSyst msgSyst cli)

def helpSendResponse (cfg : Config) (cli : Client) : Session Client :=
  whenLogged cfg cli (sendMessage cfg idHelp msgHelp cli)

def pwdSendResponse (cfg : Config) (cli : Client) : Session Client :=
  whenLogged cfg cli (sendMessage cfg idPwd msgPwd cli)

/-- The middle part of the answer to `LIST`: the mutex is taken once for the
size and once more for the list. -/
def sendList : Session Unit :=
  .call .directoriesSize fun size =>
    if size > 0 then .call .getList fun list => sendString list else .ret ()

def listSendResponse (cfg : Config) (cli : Client) : Session Client :=
  whenLogged cfg cli (do
    let _ ← sendMessage cfg idListBegin msgListBegin cli
    sendList
    sendMessage cfg idListEnd msgListEnd cli)

def mkdSendResponse (cfg : Config) (dirname : Text) (cli : Client) : Session Client :=
  whenLogged cfg cli (.call (.addDirectory dirname) fun added =>
    if added then sendDirectory cfg idMkdSuccess dirname msgMkdSuccess cli
    else sendMessage cfg idMkdFailure msgMkdFailure cli)

def rmdSendResponse (cfg : Config) (dirname : Text) (cli : Client) : Session Client :=
  whenLogged cfg cli (.call (.removeDirectory dirname) fun removed =>
    if removed then sendDirectory cfg idRmdSuccess dirname msgRmdSuccess cli
    else sendMessage cfg idRmdFailure msgRmdFailed cli)

def quitSendResponse (cfg : Config) (cli : Client) : Session Client :=
  sendMessage cfg idQuit msgQuit { cli with quit := true }

def invalidSendResponse (cfg : Config) (cli : Client) : Session Client :=
  sendMessage cfg idUnknown msgUnknown cli

def sendResponse (cfg : Config) (cli : Client) : Command → Session Client
  | .user possibleUser => userSendResponse cfg possibleUser cli
  | .pass possiblePass => passSendResponse cfg possiblePass cli
  | .syst => systSendResponse cfg cli
  | .list => listSendResponse cfg cli
  | .help => helpSendResponse cfg cli
  | .pwd => pwdSendResponse cfg cli
  | .mkd dirname => mkdSendResponse cfg dirname cli
  | .rmd dirname => rmdSendResponse cfg dirname cli
  | .quit => quitSendResponse cfg cli
  | .invalid => invalidSendResponse cfg cli

def respondQuery (cfg : Config) (clientQuery : Text) (cli : Client) : Session Client := do
  let cmd ← Program.lift (createCommand clientQuery)
  sendResponse cfg cli cmd

def sendHello (cfg : Config) : Session Unit := do
  let cmd ← Program.lift (formatCmd idNewClient msgNewClient cfg)
  sendString cmd

/-- A query of more than one character is answered between two notes. -/
def answerQuery (cfg : Config) (clientQuery : Text) (cli : Client) : Session Client :=
  .call (.note (.received cli clientQuery)) fun _ => do
    let cli ← respondQuery cfg clientQuery cli
    .call (.note (.handled cli)) fun _ => .ret cli

/-- One turn of `while (!cli.quit)`. -/
def serveQuery (cfg : Config) (cli : Client) : Session (Client ⊕ Client) :=
  if cli.quit then .ret (.inr cli)
  else .call .receiveString fun clientQuery =>
    if clientQuery.length > 1 then do
      let cli ← answerQuery cfg clientQuery cli
      pure (.inl cli)
    else .ret (.inl { cli with quit := true })

def catchException : Halt → Session Unit
  | .thrown => .ret ()
  | e => .fail e

/-- The thread of a client, with at most `n` turns of its loop. -/
def respondClient (cfg : Config) (n : ℕ) : Session Unit :=
  Program.attempt catchException (do
    sendHello cfg
    let _ ← Program.iterate .running (serveQuery cfg) n Client.new
    pure ())

structure Reply where
  id : Text
  message : Text
  after : Client

def usesDirectories : Command → Bool
  | .list => true
  | .mkd _ => true
  | .rmd _ => true
  | _ => false

def plainReply (cfg : Config) (cli : Client) : Command → Except Halt Reply
  | .user possibleUser =>
    .ok ⟨idPassRequired,msgPassRequired,{ cli with possibleUser := possibleUser }⟩
  | .pass possiblePass => do
    let valid ← validCredentials cfg possiblePass cli
    .ok (if valid then ⟨idLoginSuccess,msgLoginSuccess,{ cli with logged := true }⟩
      else ⟨idLoginFailed,msgLoginFailed,cli⟩)
  | .syst => .ok (if cli.logged then ⟨idSyst,msgSyst,cli⟩ else ⟨idNotLogged,msgNotLogged,cli⟩)
  | .help => .ok (if cli.logged then ⟨idHelp,msgHelp,cli⟩ else ⟨idNotLogged,msgNotLogged,cli⟩)
  | .pwd => .ok (if cli.logged then ⟨idPwd,msgPwd,cli⟩ else ⟨idNotLogged,msgNotLogged,cli⟩)
  | .quit => .ok ⟨idQuit,msgQuit,{ cli with quit := true }⟩
  | .invalid => .ok ⟨idUnknown,msgUnknown,cli⟩
  | _ => .ok ⟨idNotLogged,msgNotLogged,cli⟩

/-- Apart from the directory commands of a client that is logged in, every
command is answered with one configured message. -/
theorem sendResponse_plain (cfg : Config) (cli : Client) (cmd : Command)
    (h : cli.logged = false ∨ usesDirectories cmd = false) :
    sendResponse cfg cli cmd = Program.lift (plainReply cfg cli cmd) >>=
      fun r => sendMessage cfg r.id r.message r.after := by
  cases cmd with
  | user u => rfl
  | pass p =>
    rw [sendResponse, passSendResponse, plainReply]
    rcases validCredentials cfg p cli with e | valid
    · rfl
    · cases valid <;> rfl
  | syst => cases hl : cli.logged <;>
      simp [sendResponse, systSendResponse, whenLogged, plainReply, hl]
  | help => cases hl : cli.logged <;>
      simp [sendResponse, helpSendResponse, whenLogged, plainReply, hl]
  | pwd => cases hl : cli.logged <;>
      simp [sendResponse, pwdSendResponse, whenLogged, plainReply, hl]
  | quit => rfl
  | invalid => rfl
  | list => simp_all [sendResponse, listSendResponse, whenLogged, plainReply, usesDirectories]
  | mkd d => simp_all [sendResponse, mkdSendResponse, whenLogged, plainReply, usesDirectories]
  | rmd d => simp_all [sendResponse, rmdSendResponse, whenLogged, plainReply, usesDirectories]

theorem plainReply_key {cfg : Config} {cli : Client} {cmd : Command} {r : Reply}
    (h : plainReply cfg cli cmd = .ok r) : r.message ∈ messageKeys := by
  cases cmd with
  | pass p =>
    obtain ⟨valid,_,hr⟩ := bind_eq_ok h
    cases hr
    split <;> simp [messageKeys]
  | syst => cases h; split <;> simp [messageKeys]
  | help => cases h; split <;> simp [messageKeys]
  | pwd => cases h; split <;> simp [messageKeys]
  | _ => cases h; simp [messageKeys]

def plainIds : List Text :=
  [idNotLogged,idPassRequired,idLoginSuccess,idLoginFailed,idUnknown,idSyst,idHelp,idPwd,idQuit]

theorem plainIds_code :
    ∀ id ∈ plainIds, id.length = 3 ∧ id ≠ idListBegin ∧ newline ∉ id := by decide

theorem plainReply_id {cfg : Config} {cli : Client} {cmd : Command} {r : Reply}
    (h : plainReply cfg cli cmd = .ok r) : r.id ∈ plainIds := by
  cases cmd with
  | pass p =>
    obtain ⟨valid,_,hr⟩ := bind_eq_ok h
    cases hr
    split <;> simp [plainIds]
  | syst => cases h; split <;> simp [plainIds]
  | help => cases h; split <;> simp [plainIds]
  | pwd => cases h; split <;> simp [plainIds]
  | _ => cases h; simp [plainIds]

theorem plainReply_quit {cfg : Config} {cli : Client} {cmd : Command} {r : Reply}
    (h : plainReply cfg cli cmd = .ok r) : r.after.quit = (cli.quit || cmd = .quit) := by
  cases cmd with
  | pass p =>
    obtain ⟨valid,_,hr⟩ := bind_eq_ok h
    cases hr
    split <;> simp
  | syst => cases h; split <;> simp
  | help => cases h; split <;> simp
  | pwd => cases h; split <;> simp
  | _ => cases h; simp

theorem plainReply_login {cfg : Config} {cli : Client} {cmd : Command} {r : Reply}
    (h : plainReply cfg cli cmd = .ok r) (hu : ∀ u, cmd ≠ .user u) (hp : ∀ p, cmd ≠ .pass p) :
    r.after.logged = cli.logged ∧ r.after.possibleUser = cli.possibleUser := by
  cases cmd with
  | user u => exact absurd rfl (hu u)
  | pass p => exact absurd rfl (hp p)
  | syst => cases h; split <;> exact ⟨rfl,rfl⟩
  | help => cases h; split <;> exact ⟨rfl,rfl⟩
  | pwd => cases h; split <;> exact ⟨rfl,rfl⟩
  | _ => cases h; exact ⟨rfl,rfl⟩

theorem validCredentials_eq {cfg : Config} (hu : cfg.Defines keyUser) (hp : cfg.Defines keyPass)
    (possiblePass : Text) (cli : Client) :
    validCredentials cfg possiblePass cli =
      .ok (cli.possibleUser = cfg.value keyUser ∧ possiblePass = cfg.value keyPass) := by
  rw [validCredentials, getMessage_eq hu, getMessage_eq hp, ok_bind]
  by_cases h : cli.possibleUser = cfg.value keyUser
  · simp [h]
  · simp [h]

theorem validCredentials_error {cfg : Config} {possiblePass : Text} {cli : Client} {e : Halt}
    (h : validCredentials cfg possiblePass cli = .error e) : e = .fault .endIterator := by
  rw [validCredentials] at h
  cases hu : cfg.getMessage keyUser with
  | error e' =>
    rw [hu, error_bind, Except.error.injEq] at h
    rw [← h, getMessage_error hu]
  | ok user =>
    rw [hu, ok_bind] at h
    split at h
    · cases hp : cfg.getMessage keyPass with
      | error e' =>
        rw [hp, error_bind, Except.error.injEq] at h
        rw [← h, getMessage_error hp]
      | ok pass =>
        rw [hp] at h
        cases h
    · cases h

theorem plainReply_error {cfg : Config} {cli : Client} {cmd : Command} {e : Halt}
    (h : plainReply cfg cli cmd = .error e) : e = .fault .endIterator := by
  cases cmd with
  | pass p =>
    rw [plainReply] at h
    cases hv : validCredentials cfg p cli with
    | error e' =>
      rw [hv, error_bind, Except.error.injEq] at h
      rw [← h, validCredentials_error hv]
    | ok valid =>
      rw [hv] at h
      cases h
  | _ => cases h

theorem plainReply_total {cfg : Config} (hu : cfg.Defines keyUser) (hp : cfg.Defines keyPass)
    (cli : Client) (cmd : Command) : ∃ r, plainReply cfg cli cmd = .ok r := by
  cases cmd with
  | pass p =>
    rw [plainReply, validCredentials_eq hu hp]
    exact ⟨_,rfl⟩
  | _ => exact ⟨_,rfl⟩

theorem plainReply_missing {cfg : Config} {cli : Client} {cmd : Command} {e : Halt}
    (h : plainReply cfg cli cmd = .error e) : ¬ cfg.DefinesAll := by
  intro hall
  obtain ⟨r,hr⟩ := plainReply_total (hall keyUser (by simp [messageKeys]))
    (hall keyPass (by simp [messageKeys])) cli cmd
  rw [hr] at h
  cases h

def reply (cfg : Config) (id message : Text) : Text := id++text " "++cfg.value message

def replyDir (cfg : Config) (id dirname message : Text) : Text :=
  id++text " "++text "\""++dirname.dropLast++text "\" "++cfg.value message

theorem formatCmd_eq {cfg : Config} {message : Text} (h : cfg.Defines message) (id : Text) :
    formatCmd id message cfg = .ok (reply cfg id message) := by
  rw [formatCmd, getMessage_eq h]
  rfl

theorem formatCmdDir_eq {cfg : Config} {message : Text} (h : cfg.Defines message) (id : Text)
    {dirname : Text} (hd : dirname ≠ []) :
    formatCmdDir id dirname message cfg = .ok (replyDir cfg id dirname message) := by
  rw [formatCmdDir, popBack, if_neg hd, getMessage_eq h]
  rfl

theorem sendMessage_eq {cfg : Config} {message : Text} (h : cfg.Defines message) (id : Text)
    (cli : Client) :
    sendMessage cfg id message cli = sendString (reply cfg id message) >>= fun _ => .ret cli := by
  rw [sendMessage, formatCmd_eq h]
  rfl

theorem sendDirectory_eq {cfg : Config} {message : Text} (h : cfg.Defines message) (id : Text)
    {dirname : Text} (hd : dirname ≠ []) (cli : Client) :
    sendDirectory cfg id dirname message cli =
      sendString (replyDir cfg id dirname message) >>= fun _ => .ret cli := by
  rw [sendDirectory, formatCmdDir_eq h id hd]
  rfl

theorem formatCmd_error {cfg : Config} {id message : Text} {e : Halt}
    (h : formatCmd id message cfg = .error e) :
    e = .fault .endIterator ∧ ¬ cfg.Defines message := by
  by_cases hk : cfg.Defines message
  · rw [formatCmd_eq hk] at h
    cases h
  · rw [formatCmd, getMessage_fault hk] at h
    cases h
    exact ⟨rfl,hk⟩

theorem formatCmdDir_error {cfg : Config} {id dirname message : Text} {e : Halt}
    (h : formatCmdDir id dirname message cfg = .error e) :
    (e = .fault .emptyText ∧ dirname = []) ∨
      (e = .fault .endIterator ∧ ¬ cfg.Defines message) := by
  by_cases hd : dirname = []
  · rw [formatCmdDir, popBack, if_pos hd] at h
    cases h
    exact .inl ⟨rfl,hd⟩
  · by_cases hk : cfg.Defines message
    · rw [formatCmdDir_eq hk id hd] at h
      cases h
    · rw [formatCmdDir, popBack, if_neg hd, getMessage_fault hk] at h
      cases h
      exact .inr ⟨rfl,hk⟩

def mkdAnswer (cfg : Config) (d : Text) : Bool → Text
  | true => replyDir cfg idMkdSuccess d msgMkdSuccess
  | false => reply cfg idMkdFailure msgMkdFailure

def rmdAnswer (cfg : Config) (d : Text) : Bool → Text
  | true => replyDir cfg idRmdSuccess d msgRmdSuccess
  | false => reply cfg idRmdFailure msgRmdFailed

def replySize (cfg : Config) (message : Text) : ℕ := 4+(cfg.value message).length

def replyDirSize (cfg : Config) (d message : Text) : ℕ :=
  7+(d.length-1)+(cfg.value message).length

theorem reply_size (cfg : Config) {id : Text} (hid : id.length = 3) (message : Text) :
    (reply cfg id message).length = replySize cfg message := by
  have hblank : (text " ").length = 1 := rfl
  simp only [reply, replySize, List.length_append, hid, hblank]

theorem replyDir_size (cfg : Config) {id : Text} (hid : id.length = 3) (d message : Text) :
    (replyDir cfg id d message).length = replyDirSize cfg d message := by
  have hblank : (text " ").length = 1 := rfl
  have hopen : (text "\"").length = 1 := rfl
  have hclose : (text "\" ").length = 2 := rfl
  simp only [replyDir, replyDirSize, List.length_append, List.length_dropLast, hid, hblank, hopen,
    hclose]
  omega

end Workshop.FtpServer
