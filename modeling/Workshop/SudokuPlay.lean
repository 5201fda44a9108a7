import Workshop.HalfDuplex
import Workshop.SudokuClient
import Workshop.SudokuCommands

/-!
# The two sudoku programs on a connection

`sudoku_play` and `sudoku_run_server` from the established connection on. The
client's status says at first whether the line was valid and at last that the
game is over; a put with a wrong index leaves it as it was before the line.
Every loop is bounded by a number of iterations.
-/

set_option autoImplicit false

namespace Workshop.SudokuPlay
open Workshop.CMemory Workshop.InteractiveProgram Workshop.ByteChannel Workshop.HalfDuplex
open Workshop.SudokuBoard Workshop.SudokuServer Workshop.SudokuProtocol Workshop.SudokuStrings
open Workshop.SudokuClient Workshop.SudokuCommands

abbrev readBuffMax : ℕ := 50

inductive SudokuStatus where
  | ok
  | argsOk
  | argsInvalid
  | argsNull
  | endgame
  deriving DecidableEq, Repr

/-- The read line and its terminator go into the buffer, whose size is smaller
than the bound handed to `fgets`. -/
def clientReadCommand (self : Client) (command : Vector UInt8 maxCommandLength) :
    ClientProgram (Client × Vector UInt8 maxCommandLength) :=
  .call (.other .fgetc) fun c =>
    match c with
    | none => .ret ({ self with status := .eofReached },command)
    | some c =>
      .call (.other (.ungetc c)) fun _ =>
        .call (.other (.fgets readBuffMax)) fun line =>
          match line with
          | none => .ret ({ self with status := .endgame },command)
          | some ⟨s,_⟩ => checked (storeAll command 0 (s++[0])) >>= fun command =>
            .ret (self,command)

def printErrors : List Text → ClientProgram Unit
  | [] => .ret ()
  | e::es => .call (.other (.fprintf e)) fun _ => printErrors es

structure Playing where
  client : Client
  game : SudokuStatus
  command : Vector UInt8 maxCommandLength
  received : Vector UInt8 receivedBoard

/-- The client at the start of `sudoku_play`, after a successful `client_connect`. -/
def Client.enter (self : Client) : Client :=
  { self with command := 'X'.toUInt8, status := .connected }

def Client.toCommand (self : Client) : Command := ⟨self.command,self.row,self.col,self.value⟩

/-- One turn of `while (client->status == CLIENT_COMMAND_INVALID)`. -/
def playRead (s : Playing) : ClientProgram (Playing ⊕ Playing) :=
  if s.client.status = .commandInvalid then
    clientReadCommand { s.client with status := .ok } s.command >>= fun r =>
      checked (clientCommandProcess r.1 r.2) >>= fun p =>
        printErrors p.2 >>= fun _ => .ret (.inl { s with client := p.1, command := r.2 })
  else .ret (.inr s)

def playLeave (s : Playing) : ClientProgram Playing :=
  if s.client.command = 'E'.toUInt8 ∨ s.client.status = .eofReached then
    .call .shutdown fun _ =>
      .ret { s with client := { s.client with status := .endgame }, game := .endgame }
  else .ret s

def playCommand (s : Playing) : ClientProgram Playing :=
  if s.client.status = .commandValid then
    protocolSendCommand (Client.toCommand s.client) >>= fun _ =>
      protocolReceiveString s.received >>= fun r => .ret { s with received := r.2 }
  else .ret s

/-- One turn of `while (client->status != CLIENT_ENDGAME)`. -/
def playTurn (n : ℕ) (s : Playing) : ClientProgram (Playing ⊕ Playing) :=
  if s.client.status ≠ .endgame then
    Program.iterate .running playRead n
        { s with client := { s.client with status := .commandInvalid } } >>= fun s =>
      playLeave s >>= fun s => playCommand s >>= fun s => .ret (.inl s)
  else .ret (.inr s)

def sudokuPlay (n : ℕ) (client : Client) (game : SudokuStatus) : ClientProgram Playing :=
  Program.iterate .running (playTurn n) n
    { client := Client.enter client, game,
      command := Vector.replicate maxCommandLength 1,
      received := Vector.replicate receivedBoard 0 }

section Server
variable (messageLen : Vector UInt8 headerLen)

def serverEnd (game : SudokuStatus) (s : Serving) :
    Program (net record) Halt (Serving × SudokuStatus) :=
  .call .shutdown fun _ =>
    .ret ({ s with status := .shutdown },if s.status = .receptionEnd then .endgame else game)

def sudokuRunServer (n : ℕ) (server : Server) (board : Board) (file : Option Text)
    (game : SudokuStatus) : Program (net record) Halt (Serving × SudokuStatus) :=
  checked (serverBoardRead board file) >>= fun board =>
    serveCommands messageLen n server board >>= serverEnd game

end Server

section Transfers
variable {I : Interface} {n : ℕ}

theorem sktSend_sends (len : ℤ) (buf : Text) :
    Sends (sktSend len buf : Program (net I) Halt SocketStatus) (buf.take len.toNat)
      (.ret .sendSuccess) :=
  sends_bind (sendLoop_sends _) _

theorem sktReceive_takes (buf : Vector UInt8 n) {body : Text} (h : body ≠ [])
    (hn : body.length ≤ n) :
    Takes (sktReceive body.length buf : Program (net I) Halt (SocketStatus × Vector UInt8 n)) body
      (.ret (.receptionSuccess,overwrite buf 0 body)) := by
  rw [sktReceive, Int.toNat_natCast]
  apply takes_last (recvLoop_takes body.length buf 0 body (Nat.zero_add _) hn)
  rw [if_pos (List.length_pos_iff.mpr h)]

theorem receive_byte_takes (aux : Vector UInt8 10) (b : UInt8) :
    Takes (sktReceive 1 aux : Program (net I) Halt (SocketStatus × Vector UInt8 10)) [b]
      (.ret (.receptionSuccess,overwrite aux 0 [b])) := by
  have hne : [b] ≠ [] := List.cons_ne_nil b []
  exact sktReceive_takes aux hne (by simp)

theorem sendCommand_sends (c : Command) :
    Sends (protocolSendCommand c : Program (net I) Halt SocketStatus) (encodeCommand c)
      (.ret .sendSuccess) := by
  have hbyte : ∀ b : UInt8, Sends (sktSend 1 [b] : Program (net I) Halt SocketStatus) [b]
      (.ret .sendSuccess) := fun b => sktSend_sends 1 [b]
  by_cases hP : c.command = 'P'.toUInt8
  · rw [encodeCommand, if_pos hP]
    apply sends_then (hbyte c.command)
    rw [if_pos hP]
    exact sends_then (hbyte c.row) (sends_then (hbyte c.col) (hbyte c.value))
  · rw [encodeCommand, if_neg hP]
    exact sends_last (hbyte c.command) (if_neg hP)

theorem receiveCommand_takes (self : Server) (c : Command) :
    Takes (protocolReceiveCommand self : Program (net I) Halt (SocketStatus × Server))
      (encodeCommand c) (.ret (.receptionSuccess,self.receive c)) := by
  have hbyte : ∀ (aux : Vector UInt8 10) (b : UInt8), (overwrite aux 0 [b])[0] = b := by
    intro aux b
    rw [overwrite_byte, Vector.getElem_set_self]
  by_cases hP : c.command = 'P'.toUInt8
  · rw [encodeCommand, if_pos hP]
    apply takes_then (receive_byte_takes receivedAux c.command)
    simp only [if_true, hbyte, if_pos hP, Server.receive]
    apply takes_then (receive_byte_takes _ c.row)
    apply takes_then (receive_byte_takes _ c.col)
    apply takes_last (receive_byte_takes _ c.value)
    simp only [hbyte]
  · rw [encodeCommand, if_neg hP]
    apply takes_last (receive_byte_takes receivedAux c.command)
    simp only [if_true, hbyte, if_neg hP, Server.receive]

theorem sendString_sends (messageLen : Vector UInt8 headerLen) {t : Text} (h : t.length < 1000) :
    Sends (protocolSendString messageLen t : Program (net I) Halt SocketStatus) (frame t)
      (.ret .sendSuccess) := by
  have hheader : Sends (sktSend (headerLen-1) (messageHeader messageLen t.length).toList :
      Program (net I) Halt SocketStatus) (headerBytes t.length) (.ret .sendSuccess) := by
    rw [← messageHeader_take messageLen h]
    exact sktSend_sends _ _
  have hbody : Sends (sktSend t.length t : Program (net I) Halt SocketStatus) t
      (.ret .sendSuccess) := by
    have hall := sktSend_sends (I := I) t.length t
    rw [Int.toNat_natCast, List.take_length] at hall
    exact hall
  rw [protocolSendString, narrow_small (by omega)]
  exact sends_then hheader hbody

theorem receiveString_takes (received : Vector UInt8 receivedBoard) {t : Text} (h : t ≠ [])
    (hlen : t.length < receivedBoard) (h0 : (0:UInt8) ∉ t) :
    ∃ received', Takes (protocolReceiveString received) (frame t)
      (.call (.other (.printf (t.dropLast++[newline]))) fun _ =>
        .ret (.receptionSuccess,received')) := by
  have hsmall : t.length < 1000 := by rw [receivedBoard] at hlen; omega
  have hbytes := headerBytes_length hsmall
  have hne : headerBytes t.length ≠ [] := List.ne_nil_of_length_eq_add_one hbytes
  have hheader : Takes (sktReceive (headerLen-1) (Vector.replicate headerLen 0) :
      ClientProgram (SocketStatus × Vector UInt8 headerLen)) (headerBytes t.length)
      (.ret (.receptionSuccess,
        overwrite (Vector.replicate headerLen 0) 0 (headerBytes t.length))) := by
    have hblock := sktReceive_takes (I := stdio) (Vector.replicate headerLen 0) hne
      (by rw [hbytes]; decide)
    rw [hbytes] at hblock
    exact hblock
  obtain ⟨received',hp⟩ := printReceived_body received h hlen.le h0
  have hpos := List.length_pos_iff.mpr h
  have hz : ¬ ((t.length:ℕ):ℤ) = 0 := by omega
  refine ⟨received',?_⟩
  apply takes_then hheader
  rw [header_cString hsmall, checked_ok, Program.ret_bind, atoi_headerText, if_neg hz]
  apply takes_last (sktReceive_takes received h hlen.le)
  rw [hp, checked_ok, Program.ret_bind]

end Transfers

section ServerLoop
variable (messageLen : Vector UInt8 headerLen) (game : SudokuStatus)

def serverLoop (n : ℕ) (self : Server) (b : Board) :
    Program (net record) Halt (Serving × SudokuStatus) :=
  serveCommands messageLen n self b >>= serverEnd game

theorem receive_waiting {I : Interface} (aux : Vector UInt8 10) :
    Waiting (sktReceive 1 aux : Program (net I) Halt (SocketStatus × Vector UInt8 10)) := by
  rw [sktReceive, recvLoop, if_pos (by decide)]
  exact ⟨1,_,Nat.one_pos,rfl⟩

theorem serverLoop_waiting (n : ℕ) (self : Server) (b : Board) :
    Waiting (serverLoop messageLen game n self b) := by
  rw [serverLoop, serveCommands, protocolReceiveCommand]
  exact waiting_bind (waiting_bind (waiting_bind (receive_waiting _) _) _) _

/-- A received command is processed and recorded, its answer is sent, and the
loop goes on. -/
theorem serverLoop_takes (n : ℕ) {self server : Server} {b b' : Board} {t : Text} {c : Command}
    (hp : serverProcessCommand (self.receive c) b = .ok ⟨server,b',[t]⟩) :
    Takes (serverLoop messageLen game (n+1) self b) (encodeCommand c)
      (.call (.other ⟨Server.toCommand (self.receive c),b,b',[t]⟩) fun _ =>
        sendStrings messageLen [t] >>= fun _ => serverLoop messageLen game n server b') := by
  rw [serverLoop, serveCommands, Program.bind_bind]
  apply takes_last (receiveCommand_takes self c)
  rw [Program.iterate, serveCommand, if_pos rfl, hp]
  simp only [Program.call_bind, Program.bind_bind, Program.ret_bind, serverLoop, serveCommands]

theorem serverLoop_hangsUp (n : ℕ) (self : Server) (b : Board) :
    HangsUp (serverLoop messageLen game (n+1) self b) (⟨.shutdown,self,b⟩,.endgame) := by
  rw [serverLoop, serveCommands, protocolReceiveCommand, sktReceive, recvLoop,
    if_pos (by decide)]
  exact ⟨1,_,_,Nat.one_pos,rfl,rfl,rfl⟩

end ServerLoop

section ClientLoop
variable (n m k : ℕ) {s : Playing}

def afterRead (s : Playing) : ClientProgram Playing :=
  playLeave s >>= fun s => playCommand s >>= Program.iterate .running (playTurn n) m

def reading (s : Playing) : ClientProgram Playing :=
  Program.iterate .running playRead k s >>= afterRead n m

theorem play_turn (hs : s.client.status ≠ .endgame) :
    Program.iterate .running (playTurn n) (m+1) s =
      reading n m n { s with client := { s.client with status := .commandInvalid } } := by
  rw [Program.iterate, playTurn, if_pos hs, reading]
  simp only [Program.bind_bind, Program.ret_bind]
  rfl

theorem play_over (hs : s.client.status = .endgame) :
    Program.iterate .running (playTurn n) (m+1) s = .ret s := by
  rw [Program.iterate, playTurn, if_neg (not_not.mpr hs)]
  rfl

theorem reading_turn (hs : s.client.status = .commandInvalid) :
    reading n m (k+1) s = clientReadCommand { s.client with status := .ok } s.command >>= fun r =>
      checked (clientCommandProcess r.1 r.2) >>= fun p =>
        printErrors p.2 >>= fun _ => reading n m k { s with client := p.1, command := r.2 } := by
  rw [reading, Program.iterate, playRead, if_pos hs]
  simp only [Program.bind_bind, Program.ret_bind, reading]

theorem reading_done (hs : s.client.status ≠ .commandInvalid) :
    reading n m (k+1) s = afterRead n m s := by
  rw [reading, Program.iterate, playRead, if_neg hs]
  rfl

theorem afterRead_leave (hs : s.client.command = 'E'.toUInt8 ∨ s.client.status = .eofReached) :
    afterRead n m s = .call .shutdown fun _ =>
      playCommand { s with client := { s.client with status := .endgame }, game := .endgame } >>=
        Program.iterate .running (playTurn n) m := by
  rw [afterRead, playLeave, if_pos hs]
  rfl

theorem play_closed (hs : s.client.status = .endgame) :
    playCommand s >>= Program.iterate .running (playTurn n) (m+1) = .ret s := by
  rw [playCommand, if_neg (by rw [hs]; decide), Program.ret_bind, play_over n m hs]

theorem afterRead_stay (hexit : s.client.command ≠ 'E'.toUInt8)
    (heof : s.client.status ≠ .eofReached) :
    afterRead n m s = playCommand s >>= Program.iterate .running (playTurn n) m := by
  rw [afterRead, playLeave, if_neg (not_or.mpr ⟨hexit,heof⟩)]
  rfl

theorem afterRead_again (hexit : s.client.command ≠ 'E'.toUInt8) (hs : s.client.status = .ok) :
    afterRead n (m+1) s =
      reading n m n { s with client := { s.client with status := .commandInvalid } } := by
  rw [afterRead_stay n (m+1) hexit (by rw [hs]; decide), playCommand, if_neg (by rw [hs]; decide),
    Program.ret_bind, play_turn n m (by rw [hs]; decide)]

theorem afterRead_sends (hexit : s.client.command ≠ 'E'.toUInt8)
    (hs : s.client.status = .commandValid) :
    Sends (afterRead n m s) (encodeCommand (Client.toCommand s.client))
      (protocolReceiveString s.received >>= fun r =>
        Program.iterate .running (playTurn n) m { s with received := r.2 }) := by
  rw [afterRead_stay n m hexit (by rw [hs]; decide), playCommand, if_pos hs, Program.bind_bind]
  apply sends_last (sendCommand_sends _)
  rw [Program.bind_bind]
  rfl

theorem receiveString_waiting (received : Vector UInt8 receivedBoard) :
    Waiting (protocolReceiveString received) := by
  rw [protocolReceiveString, sktReceive, recvLoop, if_pos (by decide)]
  exact ⟨3,_,by decide,rfl⟩

end ClientLoop

end Workshop.SudokuPlay
