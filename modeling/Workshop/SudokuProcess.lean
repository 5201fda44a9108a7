import Workshop.SudokuPlay
import Workshop.SystemCalls

/-!
# The sudoku program as a process

`main` from the command line to its exit code, with the calls that set up a
connection and give it up. What is not initialised holds arbitrary values: the
addresses behind a failed `getaddrinfo` and the status of a client that does
not get connected are read all the same.
-/

set_option autoImplicit false

namespace Workshop.SudokuProcess
open Workshop.CMemory Workshop.InteractiveProgram Workshop.ByteChannel Workshop.OwnedResources
open Workshop.SystemCalls Workshop.SudokuBoard Workshop.SudokuServer Workshop.SudokuProtocol
open Workshop.SudokuStrings Workshop.SudokuClient
open Workshop.SudokuPlay (SudokuStatus Playing)

def msgNewClient : Text := text "Nuevo cliente"
def msgFailedConnection : Text := text "Conexion fallida\n"
def msgClientConnected : Text := text "Cliente conectado en puerto "
def sudokuErrServerCmd : Text := text "Uso: ./tp server <puerto>\n"
def sudokuErrClientCmd : Text := text "Uso: ./tp client <host> <puerto>\n"
def sudokuErrCmd : Text := text "Modo no soportado, el primer parámetro debe ser "
def sudokuErrCmdOptions : Text := text "server o client\n"
def sudokuMsgServer : Text := text "server"
def sudokuMsgClient : Text := text "client"

abbrev waitingClients : ℕ := 1
abbrev exitSuccess : ℕ := 0
abbrev exitFailure : ℕ := 1

abbrev Process (α : Type) := Program (system stdio) Halt α

def printf (s : Text) : Process Unit := .call (.other (.printf s)) .ret

structure Socket where
  skt : ℤ
  status : SocketStatus
  deriving DecidableEq, Repr

/-- `skt_connect`. Without an answer `res` is what its memory held before. -/
def sktConnect (stray : ℕ) (hostname port : Text) : Process Socket :=
  .call (.getaddrinfo (some hostname) port false) fun answer =>
    let status := if answer = none then .connectionFailure else .connected
    let res := answer.getD stray
    .call (.socket res) fun skt =>
      let status := if skt = -1 then .connectionFailure else status
      .call (.connect skt res) fun ok =>
        if ok = false then
          .call (.close skt) fun _ =>
            .call (.freeaddrinfo res) fun _ => .ret ⟨skt,.connectionFailure⟩
        else .call (.freeaddrinfo res) fun _ => .ret ⟨skt,status⟩

def sktBind (self : Socket) (res : ℕ) : Process Socket :=
  .call (.bind self.skt res) fun ok =>
    if ok = false then
      .call (.close self.skt) fun _ =>
        .call (.freeaddrinfo res) fun _ => .ret { self with status := .createFailure }
    else .ret self

def sktListen (self : Socket) : Process Socket :=
  .call (.listen self.skt waitingClients) fun ok =>
    if ok = false then
      .call (.close self.skt) fun _ => .ret { self with status := .createFailure }
    else .ret self

/-- `skt_create`. No failure keeps it from the calls that follow. -/
def sktCreate (stray : ℕ) (self : Socket) (port : Text) : Process Socket :=
  .call (.getaddrinfo none port true) fun answer =>
    let self := if answer = none then { self with status := .createFailure } else self
    let res := answer.getD stray
    .call (.socket res) fun skt =>
      let self := { self with skt }
      (if skt = -1 then
        .call (.freeaddrinfo res) fun _ => .ret { self with status := .createFailure }
      else .ret self) >>= fun self =>
        .call (.setsockopt self.skt) fun ok =>
          let self := if ok = false then { self with status := .createFailure } else self
          sktBind self res >>= fun self =>
            sktListen self >>= fun self => .call (.freeaddrinfo res) fun _ => .ret self

/-- `skt_accept`. The descriptor of the new client takes the place of the one
it was accepted on. -/
def sktAccept (self : Socket) : Process Socket :=
  .call (.accept self.skt) fun skt => printf (msgNewClient++[newline]) >>= fun _ =>
    .ret ⟨skt,.connected⟩

def sktDestroy (skt : ℤ) : Process Unit :=
  .call (.shutdown skt) fun _ => .call (.close skt) .ret

def serverWaitUser (stray : ℕ) (skt : Socket) (port : Text) : Process Socket :=
  sktCreate stray skt port >>= fun skt => sktAccept skt >>= fun skt =>
    (if skt.status ≠ .connected then printf msgFailedConnection
    else printf (msgClientConnected++port++[newline])) >>= fun _ => .ret skt

def serverDestroy (skt : ℤ) : Process Unit := .call (.close skt) .ret

structure Sudoku where
  mode : UInt8
  arg1 : Text
  arg2 : Text
  status : SudokuStatus
  deriving DecidableEq, Repr

/-- What the variables of the program hold before they are set. -/
structure Garbage where
  game : Sudoku
  socket : Socket
  client : Client
  server : Server
  board : BoardStatus
  res : ℕ
  messageLen : Vector UInt8 headerLen

def Asks (argv : List Text) (argc : ℕ) (mode : Text) : Prop :=
  argv.length = argc ∧ argv.getD 1 [] = mode

instance asksDecidable (argv : List Text) (argc : ℕ) (mode : Text) :
    Decidable (Asks argv argc mode) := inferInstanceAs (Decidable (_ ∧ _))

def sudokuSetMode (self : Sudoku) (argv : List Text) : Process Sudoku :=
  let self := { self with status := .argsInvalid }
  if Asks argv 3 sudokuMsgServer then
    .ret { self with mode := 'S'.toUInt8, arg1 := argv.getD 2 [], status := .argsOk }
  else if Asks argv 4 sudokuMsgClient then
    .ret { self with
      mode := 'C'.toUInt8, arg1 := argv.getD 2 [], arg2 := argv.getD 3 [], status := .argsOk }
  else if Asks argv 2 sudokuMsgServer then printf sudokuErrServerCmd >>= fun _ => .ret self
  else if Asks argv 2 sudokuMsgClient then printf sudokuErrClientCmd >>= fun _ => .ret self
  else printf (sudokuErrCmd++sudokuErrCmdOptions) >>= fun _ => .ret self

section Program
variable (n : ℕ) (g : Garbage)

def sudokuRunServer (file : Option Text) (self : Sudoku) (socket : Socket) (board : Board) :
    Process Sudoku :=
  serverWaitUser g.res socket self.arg1 >>= fun socket =>
    if socket.status = .connected then
      (SudokuPlay.sudokuRunServer g.messageLen n g.server board file self.status).interp
        (onSocket socket.skt (serverDestroy socket.skt) fun _ => .ret ()) >>= fun r =>
          .ret { self with status := r.2 }
    else
      serverDestroy socket.skt >>= fun _ =>
        .ret (if socket.status = .receptionEnd then { self with status := .endgame } else self)

def clientConnect (self : Client) (host port : Text) : Process (Client × Socket) :=
  sktConnect g.res host port >>= fun skt =>
    .ret (if skt.status = .connected then { self with status := .connected } else self,skt)

def sudokuPlay (self : Sudoku) (client : Client) : Process Sudoku :=
  clientConnect g { client with command := 'X'.toUInt8 } self.arg1 self.arg2 >>= fun r =>
    if r.1.status = .connected then
      (SudokuPlay.sudokuPlay n r.1 self.status).interp
        (onSocket r.2.skt (sktDestroy r.2.skt) fun op => .call (.other op) .ret) >>= fun s =>
          .ret { self with status := s.game }
    else .ret self

def sudokuRun (file : Option Text) (self : Sudoku) : Process Sudoku :=
  let client := { g.client with row := 0, col := 0, value := 0 }
  if self.mode = 'S'.toUInt8 then sudokuRunServer n g file self g.socket (blankBoard g.board)
  else if self.mode = 'C'.toUInt8 then sudokuPlay n g self client
  else .ret self

def main (file : Option Text) (argv : List Text) : Process ℕ :=
  sudokuSetMode g.game argv >>= fun game =>
    (if game.status = .argsOk then sudokuRun n g file game else .ret game) >>= fun game =>
      .ret (if game.status ≠ .endgame then exitFailure else exitSuccess)

end Program

section Sessions
variable {I : Interface} {P : (op : I.Op) → I.Res op → Prop} {m : ℕ}

def Received (status : SocketStatus) : Prop :=
  status = .receptionSuccess ∨ status = .receptionEnd

theorem stays_receive (len : ℤ) (buf : Vector UInt8 m) :
    Stays P (fun r => Received r.1)
      (sktReceive len buf : Program (net I) Halt (SocketStatus × Vector UInt8 m)) := by
  apply stays_then (stays_recvLoop _ _ _)
  intro r _
  refine ⟨rfl,?_⟩
  by_cases h : r.1 > 0
  · exact .inl (if_pos h)
  · exact .inr (if_neg h)

theorem stays_send (len : ℤ) (buf : Text) :
    Stays P (fun _ => True) (sktSend len buf : Program (net I) Halt SocketStatus) := by
  apply stays_then (stays_sendLoop _)
  intro e _
  cases e <;> exact ⟨rfl,trivial⟩

theorem stays_receiveCommand (command : Server) :
    Stays P (fun r => Received r.1)
      (protocolReceiveCommand command : Program (net I) Halt (SocketStatus × Server)) := by
  apply stays_then (stays_receive _ _)
  intro r hr
  by_cases hs : r.1 = .receptionSuccess
  · rw [if_pos hs]
    by_cases hP : r.2[0] = 'P'.toUInt8
    · rw [if_pos hP]
      apply stays_then (stays_receive _ _)
      intro r1 _
      apply stays_then (stays_receive _ _)
      intro r2 _
      apply stays_then (stays_receive _ _)
      intro r3 hr3
      exact ⟨rfl,hr3⟩
    · rw [if_neg hP]
      exact ⟨rfl,hr⟩
  · rw [if_neg hs]
    exact ⟨rfl,hr⟩

theorem stays_sendString (messageLen : Vector UInt8 headerLen) (t : Text) :
    Stays P (fun _ => True)
      (protocolSendString messageLen t : Program (net I) Halt SocketStatus) :=
  stays_then (stays_send _ _) fun _ _ => stays_send _ _

theorem stays_sendStrings (messageLen : Vector UInt8 headerLen) (ts : List Text) :
    Stays P (fun _ => True) (sendStrings messageLen ts : Program (net I) Halt Unit) := by
  induction ts with
  | nil => exact ⟨rfl,trivial⟩
  | cons t ts ih => exact stays_then (stays_sendString messageLen t) fun _ _ => ih

theorem stays_sendCommand (c : Command) :
    Stays P (fun _ => True) (protocolSendCommand c : Program (net I) Halt SocketStatus) := by
  apply stays_then (stays_send _ _)
  intro status _
  by_cases hP : c.command = 'P'.toUInt8
  · rw [if_pos hP]
    apply stays_then (stays_send _ _)
    intro _ _
    apply stays_then (stays_send _ _)
    intro _ _
    exact stays_send _ _
  · rw [if_neg hP]
    exact ⟨rfl,trivial⟩

end Sessions

section ServerSession
variable {P : (op : record.Op) → record.Res op → Prop} (messageLen : Vector UInt8 headerLen)

theorem stays_serveCommands (n : ℕ) (server : Server) (board : Board) :
    Stays P (fun s => s.status = .receptionEnd) (serveCommands messageLen n server board) := by
  apply stays_then (stays_receiveCommand server)
  intro r hr
  apply keeps_iterate fun s closed => closed = false ∧ Received s.status
  · rintro s closed ⟨rfl,hs⟩
    rw [serveCommand]
    by_cases hsuccess : s.status = .receptionSuccess
    · rw [if_pos hsuccess]
      cases serverProcessCommand s.server s.board with
      | error f => trivial
      | ok served =>
        refine ⟨trivial,fun _ _ => ?_⟩
        apply stays_then (stays_sendStrings messageLen served.sent)
        intro _ _
        apply stays_then (stays_receiveCommand served.self)
        intro r hr
        exact ⟨rfl,hr⟩
    · rw [if_neg hsuccess]
      exact ⟨rfl,hs.resolve_left hsuccess⟩
  · intro s closed _
    trivial
  · exact ⟨rfl,hr⟩

/-- A server that returns has seen the end of the stream. -/
theorem keeps_serverSession (n : ℕ) (server : Server) (board : Board) (file : Option Text)
    (game : SudokuStatus) :
    Keeps (once P) (fun r closed => r.2 = .endgame ∧ closed = true) (fun _ _ => True)
      (SudokuPlay.sudokuRunServer messageLen n server board file game) false := by
  rw [SudokuPlay.sudokuRunServer]
  cases serverBoardRead board file with
  | error f => trivial
  | ok board =>
    apply stays_then (stays_serveCommands messageLen n server board)
    intro s hs
    exact ⟨rfl,fun _ _ => ⟨if_pos hs,rfl⟩⟩

end ServerSession

section ClientSession

/-- `fgets` finds the byte that was put back. -/
def Answered (op : StdioOp) (r : StdioRes op) : Prop :=
  match op, r with
  | .fgets _, line => line ≠ none
  | _, _ => True

theorem processPut_status {self : Client} {s : Text} {p : Client × List Text}
    (h : processPut self s = .ok p) :
    p.1.status = self.status ∨ p.1.status = .commandValid ∨ p.1.status = .commandInvalid := by
  rw [processPut] at h
  obtain ⟨word,_,h⟩ := bind_eq_ok h
  split at h
  · obtain ⟨word',_,h⟩ := bind_eq_ok h
    split at h
    · obtain ⟨word'',_,h⟩ := bind_eq_ok h
      split at h
      · cases h
        exact .inr (.inl rfl)
      · cases h
        exact .inl rfl
    · cases h
      exact .inr (.inr rfl)
  · cases h
    exact .inr (.inr rfl)

theorem processWord_status (self : Client) (line : Text) :
    (processWord self line).1.status = .commandValid ∨
      (processWord self line).1.status = .commandInvalid := by
  unfold processWord
  split_ifs
  iterate 5 exact .inl rfl
  exact .inr rfl

theorem process_status {self : Client} {command : Vector UInt8 maxCommandLength}
    {p : Client × List Text} (h : clientCommandProcess self command = .ok p) :
    p.1.status = self.status ∨ p.1.status = .commandValid ∨ p.1.status = .commandInvalid := by
  rw [clientCommandProcess] at h
  split at h
  · cases h
    exact .inl rfl
  · obtain ⟨line,_,h⟩ := bind_eq_ok h
    obtain ⟨aux,_,h⟩ := bind_eq_ok h
    obtain ⟨word,_,h⟩ := bind_eq_ok h
    split at h
    · have hput := processPut_status h
      exact hput
    · cases h
      exact .inr (processWord_status self line)

theorem stays_printErrors (es : List Text) :
    Stays Answered (fun _ => True) (SudokuPlay.printErrors es) := by
  induction es with
  | nil => exact ⟨rfl,trivial⟩
  | cons e es ih => exact ⟨trivial,fun _ _ => ih⟩

theorem stays_readCommand {self : Client} (h : self.status ≠ .endgame)
    (command : Vector UInt8 maxCommandLength) :
    Stays Answered (fun r => r.1.status ≠ .endgame)
      (SudokuPlay.clientReadCommand self command) := by
  refine ⟨trivial,fun c _ => ?_⟩
  cases c with
  | none => exact ⟨rfl,ClientStatus.noConfusion⟩
  | some c =>
    refine ⟨trivial,fun _ _ => ⟨trivial,fun line hline => ?_⟩⟩
    cases line with
    | none => exact absurd rfl hline
    | some line =>
      show Keeps _ _ _ (checked (storeAll command 0 (line.1++[0])) >>= fun command =>
        .ret (self,command)) false
      cases storeAll command 0 (line.1++[0]) with
      | error f => trivial
      | ok command => exact ⟨rfl,h⟩

theorem stays_receiveString (received : Vector UInt8 receivedBoard) :
    Stays Answered (fun _ => True) (protocolReceiveString received) := by
  apply stays_then (stays_receive _ _)
  intro r _
  cases cString r.2 with
  | error f => trivial
  | ok header =>
    show Keeps _ _ _ (if atoi header = 0 then _ else _) false
    by_cases h0 : atoi header = 0
    · rw [if_pos h0]
      exact ⟨rfl,trivial⟩
    · rw [if_neg h0]
      apply stays_then (stays_receive _ _)
      intro r' _
      cases printReceived (atoi header) r'.2 with
      | error f => trivial
      | ok p => exact ⟨trivial,fun _ _ => ⟨rfl,trivial⟩⟩

theorem stays_reading (n : ℕ) {s : Playing} (h : s.client.status ≠ .endgame) :
    Stays Answered (fun s => s.client.status ≠ .endgame)
      (Program.iterate .running SudokuPlay.playRead n s) := by
  apply keeps_iterate fun s closed => closed = false ∧ s.client.status ≠ .endgame
  · rintro s closed ⟨rfl,hs⟩
    rw [SudokuPlay.playRead]
    by_cases hinvalid : s.client.status = .commandInvalid
    · rw [if_pos hinvalid]
      have hok : ({ s.client with status := .ok } : Client).status ≠ .endgame :=
        ClientStatus.noConfusion
      apply stays_then (stays_readCommand hok s.command)
      intro r hr
      cases hp : clientCommandProcess r.1 r.2 with
      | error f => trivial
      | ok p =>
        apply stays_then (stays_printErrors p.2)
        intro _ _
        refine ⟨rfl,?_⟩
        show p.1.status ≠ .endgame
        rcases process_status hp with hsame | hvalid | hinvalid
        · rw [hsame]
          exact hr
        · rw [hvalid]
          exact ClientStatus.noConfusion
        · rw [hinvalid]
          exact ClientStatus.noConfusion
    · rw [if_neg hinvalid]
      exact ⟨rfl,hs⟩
  · intro s closed _
    trivial
  · exact ⟨rfl,h⟩

/-- The game is over just when the connection is closed. -/
structure Seated (s : Playing) (closed : Bool) : Prop where
  ended : s.client.status = .endgame → s.game = .endgame ∧ closed = true
  playing : s.client.status ≠ .endgame → closed = false

theorem keeps_leave {s : Playing} (h : s.client.status ≠ .endgame) :
    Keeps (once Answered) Seated (fun _ _ => True) (SudokuPlay.playLeave s) false := by
  rw [SudokuPlay.playLeave]
  split
  · exact ⟨rfl,fun _ _ => ⟨fun _ => ⟨rfl,rfl⟩,fun hne => absurd rfl hne⟩⟩
  · exact ⟨fun he => absurd he h,fun _ => rfl⟩

theorem keeps_command {s : Playing} {closed : Bool} (h : Seated s closed) :
    Keeps (once Answered) Seated (fun _ _ => True) (SudokuPlay.playCommand s) closed := by
  rw [SudokuPlay.playCommand]
  by_cases hvalid : s.client.status = .commandValid
  · have hne : s.client.status ≠ .endgame := by
      rw [hvalid]
      exact ClientStatus.noConfusion
    obtain rfl := h.playing hne
    rw [if_pos hvalid]
    apply stays_then (stays_sendCommand _)
    intro _ _
    apply stays_then (stays_receiveString s.received)
    intro r _
    exact ⟨fun he => absurd he hne,fun _ => rfl⟩
  · rw [if_neg hvalid]
    exact h

/-- A client that returns has ended the game and closed its connection. -/
theorem keeps_clientSession (n : ℕ) (client : Client) (game : SudokuStatus) :
    Keeps (once Answered) (fun s closed => s.game = .endgame ∧ closed = true) (fun _ _ => True)
      (SudokuPlay.sudokuPlay n client game) false := by
  apply keeps_iterate Seated
  · intro s closed hs
    rw [SudokuPlay.playTurn]
    by_cases hended : s.client.status = .endgame
    · rw [if_neg (not_not.mpr hended)]
      exact hs.ended hended
    · rw [if_pos hended]
      obtain rfl := hs.playing hended
      have hinvalid : ({ s with client := { s.client with status := .commandInvalid } } :
          Playing).client.status ≠ .endgame := ClientStatus.noConfusion
      apply stays_then (stays_reading n hinvalid)
      intro s hs
      apply keeps_bind
      apply keeps_mono _ (fun _ _ h => h) (keeps_leave hs)
      intro s closed hs
      apply keeps_bind
      exact keeps_mono (fun _ _ h => h) (fun _ _ h => h) (keeps_command hs)
  · intro s closed _
    trivial
  · exact ⟨fun he => ClientStatus.noConfusion he,fun _ => rfl⟩

end ClientSession

section SetUp
variable {stray res : ℕ} {s s' : Socket} {port : Text} {es : List (Event (system stdio))}

def connecting (stray : ℕ) (hostname port : Text) (answer : Option ℕ) (skt : ℤ) (ok : Bool) :
    List (Event (system stdio)) :=
  ⟨.getaddrinfo (some hostname) port false,answer⟩::⟨.socket (answer.getD stray),skt⟩::
    ⟨.connect skt (answer.getD stray),ok⟩::
      ((if ok = false then [⟨.close skt,()⟩] else [])++[⟨.freeaddrinfo (answer.getD stray),()⟩])

theorem connect_run {hostname : Text}
    (h : Performs (sktConnect stray hostname port) es (.ret s)) :
    ∃ answer skt ok, es = connecting stray hostname port answer skt ok ∧ s.skt = skt ∧
      (s.status = .connected ↔ answer ≠ none ∧ skt ≠ -1 ∧ ok = true) := by
  obtain ⟨answer,_,rfl,h1⟩ := performs_call h
  obtain ⟨skt,_,rfl,h2⟩ := performs_call h1
  obtain ⟨ok,_,rfl,h3⟩ := performs_call h2
  refine ⟨answer,skt,ok,?_⟩
  cases ok with
  | false =>
    obtain ⟨_,_,rfl,h4⟩ := performs_call h3
    obtain ⟨-,_,rfl,h5⟩ := performs_call h4
    obtain ⟨rfl,hs⟩ := performs_ret h5
    subst hs
    exact ⟨rfl,rfl,by simp⟩
  | true =>
    obtain ⟨_,_,rfl,h4⟩ := performs_call h3
    obtain ⟨rfl,hs⟩ := performs_ret h4
    subst hs
    refine ⟨rfl,rfl,?_⟩
    by_cases hskt : skt = -1 <;> by_cases ha : answer = none <;> simp [hskt, ha]

def binding (skt : ℤ) (res : ℕ) (ok : Bool) : List (Event (system stdio)) :=
  ⟨.bind skt res,ok⟩::(if ok = false then [⟨.close skt,()⟩,⟨.freeaddrinfo res,()⟩] else [])

theorem bind_run (h : Performs (sktBind s res) es (.ret s')) :
    ∃ ok, es = binding s.skt res ok ∧ s'.skt = s.skt := by
  obtain ⟨ok,_,rfl,h1⟩ := performs_call h
  refine ⟨ok,?_⟩
  cases ok with
  | false =>
    obtain ⟨-,_,rfl,h2⟩ := performs_call h1
    obtain ⟨_,_,rfl,h3⟩ := performs_call h2
    obtain ⟨rfl,hs⟩ := performs_ret h3
    subst hs
    exact ⟨rfl,rfl⟩
  | true =>
    obtain ⟨rfl,hs⟩ := performs_ret h1
    subst hs
    exact ⟨rfl,rfl⟩

def listening (skt : ℤ) (ok : Bool) : List (Event (system stdio)) :=
  ⟨.listen skt waitingClients,ok⟩::(if ok = false then [⟨.close skt,()⟩] else [])

theorem listen_run (h : Performs (sktListen s) es (.ret s')) :
    ∃ ok, es = listening s.skt ok ∧ s'.skt = s.skt := by
  obtain ⟨ok,_,rfl,h1⟩ := performs_call h
  refine ⟨ok,?_⟩
  cases ok with
  | false =>
    obtain ⟨-,_,rfl,h2⟩ := performs_call h1
    obtain ⟨rfl,hs⟩ := performs_ret h2
    subst hs
    exact ⟨rfl,rfl⟩
  | true =>
    obtain ⟨rfl,hs⟩ := performs_ret h1
    subst hs
    exact ⟨rfl,rfl⟩

structure Creation where
  answer : Option ℕ
  skt : ℤ
  reused : Bool
  bound : Bool
  heard : Bool

def Creation.addresses (c : Creation) (stray : ℕ) : ℕ := c.answer.getD stray

def creating (stray : ℕ) (port : Text) (c : Creation) : List (Event (system stdio)) :=
  ⟨.getaddrinfo none port true,c.answer⟩::⟨.socket (c.addresses stray),c.skt⟩::
    ((if c.skt = -1 then [⟨.freeaddrinfo (c.addresses stray),()⟩] else [])++
      ⟨.setsockopt c.skt,c.reused⟩::(binding c.skt (c.addresses stray) c.bound++
        (listening c.skt c.heard++[⟨.freeaddrinfo (c.addresses stray),()⟩])))

theorem create_run (h : Performs (sktCreate stray s port) es (.ret s')) :
    ∃ c, es = creating stray port c ∧ s'.skt = c.skt := by
  obtain ⟨answer,_,rfl,h1⟩ := performs_call h
  obtain ⟨skt,_,rfl,h2⟩ := performs_call h1
  obtain ⟨s1,freeing,_,rfl,hfree,h3⟩ := performs_split h2
  obtain ⟨hfreeing,hs1⟩ : freeing = (if skt = -1 then [⟨.freeaddrinfo (answer.getD stray),()⟩]
      else []) ∧ s1.skt = skt := by
    by_cases hskt : skt = -1
    · rw [if_pos hskt] at hfree ⊢
      obtain ⟨-,_,rfl,hend⟩ := performs_call hfree
      obtain ⟨rfl,hs⟩ := performs_ret hend
      subst hs
      exact ⟨rfl,rfl⟩
    · rw [if_neg hskt] at hfree ⊢
      obtain ⟨rfl,hs⟩ := performs_ret hfree
      subst hs
      exact ⟨rfl,rfl⟩
  obtain ⟨reused,_,rfl,h4⟩ := performs_call h3
  obtain ⟨s2,_,_,rfl,hbind,h5⟩ := performs_split h4
  obtain ⟨bound,rfl,hs2⟩ := bind_run hbind
  obtain ⟨s3,_,_,rfl,hlisten,h6⟩ := performs_split h5
  obtain ⟨heard,rfl,hs3⟩ := listen_run hlisten
  obtain ⟨-,_,rfl,h7⟩ := performs_call h6
  obtain ⟨rfl,hs⟩ := performs_ret h7
  have hkept : ∀ ok : Bool, (if ok = false then { s1 with status := .createFailure }
      else s1 : Socket).skt = s1.skt := by
    intro ok
    split <;> rfl
  have hskt2 : s2.skt = skt := hs2.trans ((hkept reused).trans hs1)
  refine ⟨⟨answer,skt,reused,bound,heard⟩,?_,hs ▸ hs3.trans hskt2⟩
  rw [hfreeing, hskt2, hkept, hs1]
  rfl

/-- A client is accepted whatever has become of the socket. -/
def accepting (skt : ℤ) (port : Text) (new : ℤ) : List (Event (system stdio)) :=
  [⟨.accept skt,new⟩,⟨.other (.printf (msgNewClient++[newline])),()⟩,
    ⟨.other (.printf (msgClientConnected++port++[newline])),()⟩]

theorem wait_run (h : Performs (serverWaitUser stray s port) es (.ret s')) :
    ∃ c new, es = creating stray port c++accepting c.skt port new ∧ s' = ⟨new,.connected⟩ := by
  obtain ⟨s1,_,_,rfl,hcreate,h1⟩ := performs_split h
  obtain ⟨c,rfl,hs1⟩ := create_run hcreate
  obtain ⟨new,_,rfl,h2⟩ := performs_call h1
  obtain ⟨_,_,rfl,h3⟩ := performs_call h2
  obtain ⟨_,_,rfl,h4⟩ := performs_call h3
  obtain ⟨rfl,hs⟩ := performs_ret h4
  refine ⟨c,new,?_,hs.symm⟩
  rw [hs1]
  rfl

end SetUp

section Runs
variable {n : ℕ} {g : Garbage} {file : Option Text} {argv : List Text}
  {es : List (Event (system stdio))} {code : ℕ}

def exitCode (status : SudokuStatus) : ℕ :=
  if status ≠ .endgame then exitFailure else exitSuccess

def serverSession (n : ℕ) (g : Garbage) (file : Option Text) (skt : ℤ) :
    Process (Serving × SudokuStatus) :=
  (SudokuPlay.sudokuRunServer g.messageLen n g.server (blankBoard g.board) file .argsOk).interp
    (onSocket skt (serverDestroy skt) fun _ => .ret ())

def clientSession (n : ℕ) (client : Client) (skt : ℤ) : Process Playing :=
  (SudokuPlay.sudokuPlay n client .argsOk).interp
    (onSocket skt (sktDestroy skt) fun op => .call (.other op) .ret)

def Connected (answer : Option ℕ) (skt : ℤ) (ok : Bool) : Prop :=
  answer ≠ none ∧ skt ≠ -1 ∧ ok = true

/-- The runs of the program, up to the exit code. -/
inductive Finishes (n : ℕ) (g : Garbage) (file : Option Text) (argv : List Text) :
    List (Event (system stdio)) → ℕ → Prop where
  | server (hargs : Asks argv 3 sudokuMsgServer) (c : Creation) (new : ℤ) {es r}
      (h : Performs (serverSession n g file new) es (.ret r)) :
      Finishes n g file argv
        (creating g.res (argv.getD 2 []) c++(accepting c.skt (argv.getD 2 []) new++es))
        (exitCode r.2)
  | client (hargs : Asks argv 4 sudokuMsgClient) (answer : Option ℕ) (skt : ℤ) (ok : Bool)
      (hopen : Connected answer skt ok ∨ g.client.status = .connected) (self : Client) {es s}
      (h : Performs (clientSession n self skt) es (.ret s)) :
      Finishes n g file argv
        (connecting g.res (argv.getD 2 []) (argv.getD 3 []) answer skt ok++es) (exitCode s.game)
  | stranger (hargs : Asks argv 4 sudokuMsgClient) (answer : Option ℕ) (skt : ℤ) (ok : Bool)
      (hopen : ¬(Connected answer skt ok ∨ g.client.status = .connected)) :
      Finishes n g file argv
        (connecting g.res (argv.getD 2 []) (argv.getD 3 []) answer skt ok) exitFailure
  | usage (hserver : ¬ Asks argv 3 sudokuMsgServer) (hclient : ¬ Asks argv 4 sudokuMsgClient)
      (t : Text) : Finishes n g file argv [⟨.other (.printf t),()⟩] exitFailure

theorem setMode_usage {self game : Sudoku} (hserver : ¬ Asks argv 3 sudokuMsgServer)
    (hclient : ¬ Asks argv 4 sudokuMsgClient)
    (h : Performs (sudokuSetMode self argv) es (.ret game)) :
    game.status = .argsInvalid ∧ ∃ t, es = [⟨.other (.printf t),()⟩] := by
  have hprint {t : Text} (h : Performs (printf t >>= fun _ =>
      .ret { self with status := .argsInvalid }) es (.ret game)) :
      game.status = .argsInvalid ∧ ∃ t, es = [⟨.other (.printf t),()⟩] := by
    obtain ⟨_,_,rfl,h1⟩ := performs_call h
    obtain ⟨rfl,hs⟩ := performs_ret h1
    exact ⟨hs ▸ rfl,t,rfl⟩
  rw [sudokuSetMode, if_neg hserver, if_neg hclient] at h
  split at h
  · exact hprint h
  · split at h
    · exact hprint h
    · exact hprint h

theorem not_both (hserver : Asks argv 3 sudokuMsgServer) : ¬ Asks argv 4 sudokuMsgClient := by
  intro hclient
  exact absurd (hserver.1.symm.trans hclient.1) (by decide)

theorem server_finishes {game game' : Sudoku} (hargs : Asks argv 3 sudokuMsgServer)
    (hport : game.arg1 = argv.getD 2 []) (hgame : game.status = .argsOk)
    (h : Performs (sudokuRunServer n g file game g.socket (blankBoard g.board)) es (.ret game')) :
    Finishes n g file argv es (exitCode game'.status) := by
  obtain ⟨socket,_,_,rfl,hwait,h1⟩ := performs_split h
  obtain ⟨c,new,rfl,rfl⟩ := wait_run hwait
  rw [if_pos rfl] at h1
  obtain ⟨r,_,_,rfl,hsession,h2⟩ := performs_split h1
  obtain ⟨rfl,rfl⟩ := performs_ret h2
  rw [hgame] at hsession
  rw [hport, List.append_nil, List.append_assoc]
  exact .server hargs c new hsession

theorem clientConnect_run {self : Client} {host port : Text} {r : Client × Socket}
    (h : Performs (clientConnect g self host port) es (.ret r)) :
    ∃ answer ok, es = connecting g.res host port answer r.2.skt ok ∧
      (r.1.status = .connected ↔
        Connected answer r.2.skt ok ∨ self.status = .connected) := by
  obtain ⟨skt,_,_,rfl,hskt,h1⟩ := performs_split h
  obtain ⟨rfl,rfl⟩ := performs_ret h1
  obtain ⟨answer,fd,ok,rfl,rfl,hstatus⟩ := connect_run hskt
  rw [List.append_nil]
  refine ⟨answer,ok,rfl,?_⟩
  by_cases hs : skt.status = .connected
  · rw [if_pos hs]
    exact iff_of_true rfl (.inl (hstatus.mp hs))
  · rw [if_neg hs]
    exact (or_iff_right fun hc => hs (hstatus.mpr hc)).symm

theorem client_finishes {game game' : Sudoku} {self : Client} (hargs : Asks argv 4 sudokuMsgClient)
    (hhost : game.arg1 = argv.getD 2 []) (hport : game.arg2 = argv.getD 3 [])
    (hgame : game.status = .argsOk) (hself : self.status = g.client.status)
    (h : Performs (sudokuPlay n g game self) es (.ret game')) :
    Finishes n g file argv es (exitCode game'.status) := by
  obtain ⟨r,_,_,rfl,hconnect,h1⟩ := performs_split h
  obtain ⟨answer,ok,rfl,hstatus⟩ := clientConnect_run hconnect
  rw [hhost, hport]
  by_cases hopen : Connected answer r.2.skt ok ∨ g.client.status = .connected
  · rw [if_pos (hstatus.mpr (hself ▸ hopen))] at h1
    obtain ⟨s,_,_,rfl,hsession,h2⟩ := performs_split h1
    obtain ⟨rfl,rfl⟩ := performs_ret h2
    rw [hgame] at hsession
    rw [List.append_nil]
    exact .client hargs answer r.2.skt ok hopen _ hsession
  · rw [if_neg fun hc => hopen (hself ▸ hstatus.mp hc)] at h1
    obtain ⟨rfl,rfl⟩ := performs_ret h1
    rw [List.append_nil, hgame]
    exact .stranger hargs answer r.2.skt ok hopen

theorem main_finishes (h : Performs (main n g file argv) es (.ret code)) :
    Finishes n g file argv es code := by
  obtain ⟨game,_,_,rfl,hmode,h1⟩ := performs_split h
  obtain ⟨game',_,_,rfl,hrun,h2⟩ := performs_split h1
  obtain ⟨rfl,rfl⟩ := performs_ret h2
  rw [List.append_nil]
  by_cases hserver : Asks argv 3 sudokuMsgServer
  · rw [sudokuSetMode, if_pos hserver] at hmode
    obtain ⟨rfl,rfl⟩ := performs_ret hmode
    rw [if_pos rfl, sudokuRun, if_pos rfl] at hrun
    exact server_finishes hserver rfl rfl hrun
  · by_cases hclient : Asks argv 4 sudokuMsgClient
    · have hmodes : 'C'.toUInt8 ≠ 'S'.toUInt8 := by decide
      rw [sudokuSetMode, if_neg hserver, if_pos hclient] at hmode
      obtain ⟨rfl,rfl⟩ := performs_ret hmode
      rw [if_pos rfl, sudokuRun, if_neg hmodes, if_pos rfl] at hrun
      have hself : ({ g.client with row := 0, col := 0, value := 0 } : Client).status =
          g.client.status := rfl
      exact client_finishes hclient rfl rfl rfl hself hrun
    · obtain ⟨hgame,t,rfl⟩ := setMode_usage hserver hclient hmode
      have hne : game.status ≠ .argsOk := by
        rw [hgame]
        exact SudokuStatus.noConfusion
      rw [if_neg hne] at hrun
      obtain ⟨rfl,rfl⟩ := performs_ret hrun
      rw [hgame]
      exact .usage hserver hclient t

end Runs

end Workshop.SudokuProcess
