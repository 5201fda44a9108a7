import Workshop.ByteChannel
import Workshop.SudokuServer

/-!
# Sockets and protocol of the sudoku programs

A command is one byte, or four for a put. A string is sent behind a header of
three bytes with its length. Every function returns the status it leaves in the
socket. The server's loop makes one call of its own, which records the command
it has just processed.
-/

set_option autoImplicit false

namespace Workshop.SudokuProtocol
open Workshop.CMemory Workshop.InteractiveProgram Workshop.ByteChannel
open Workshop.SudokuBoard Workshop.SudokuServer

inductive SocketStatus where
  | connectionFailure
  | createFailure
  | receptionFailure
  | receptionSuccess
  | receptionEnd
  | sendFailure
  | sendSuccess
  | connected
  | shutdown
  deriving DecidableEq, Repr

variable {I : Interface} {n : ℕ}

/-- `skt_receive`. Its last branch needs a negative count, which the loop never
has: the end of the stream and a failure are both `receptionEnd`. -/
def sktReceive (len : ℤ) (buf : Vector UInt8 n) :
    Program (net I) Halt (SocketStatus × Vector UInt8 n) :=
  recvLoop len.toNat buf 0 >>= fun r =>
    .ret (if r.1 > 0 then .receptionSuccess else .receptionEnd,r.2)

def sktSend (len : ℤ) (buf : Text) : Program (net I) Halt SocketStatus :=
  sendLoop (buf.take len.toNat) >>= fun
    | .complete => .ret .sendSuccess
    | _ => .ret .sendFailure

def protocolSendCommand (command : Command) : Program (net I) Halt SocketStatus :=
  sktSend 1 [command.command] >>= fun status =>
    if command.command = 'P'.toUInt8 then
      sktSend 1 [command.row] >>= fun _ =>
        sktSend 1 [command.col] >>= fun _ =>
          sktSend 1 [command.value]
    else .ret status

def receivedAux : Vector UInt8 10 := #v[48,48,0,0,0,0,0,0,0,0]

/-- The last three bytes of a put. What is missing keeps the byte before it. -/
def receivePut (command : Server) (aux : Vector UInt8 10) :
    Program (net I) Halt (SocketStatus × Server) :=
  sktReceive 1 aux >>= fun r1 =>
    sktReceive 1 r1.2 >>= fun r2 =>
      sktReceive 1 r2.2 >>= fun r3 =>
        .ret (r3.1,{ command with row := r1.2[0], col := r2.2[0], value := r3.2[0] })

def protocolReceiveCommand (command : Server) : Program (net I) Halt (SocketStatus × Server) :=
  sktReceive 1 receivedAux >>= fun r =>
    if r.1 = .receptionSuccess then
      if r.2[0] = 'P'.toUInt8 then receivePut { command with command := r.2[0] } r.2
      else .ret (r.1,{ command with command := r.2[0] })
    else .ret (r.1,command)

def decimal (k : ℕ) : Text :=
  if k < 10 then [UInt8.ofNat (48+k)] else decimal (k/10)++[UInt8.ofNat (48+k%10)]

def formatInt (k : ℤ) : Text := if k < 0 then '-'.toUInt8::decimal k.natAbs else decimal k.natAbs

abbrev headerLen : ℕ := 4

/-- The header with the length. `message_len` is not initialised, and the two
forms below 100 differ in their padding only. -/
def messageHeader (messageLen : Vector UInt8 headerLen) (len : ℤ) : Vector UInt8 headerLen :=
  if len < 10 then snprintf messageLen (text "00"++formatInt len)
  else if len < 100 ∧ len ≥ 10 then snprintf messageLen (formatInt len)
  else snprintf messageLen (formatInt len)

def protocolSendString (messageLen : Vector UInt8 headerLen) (command : Text) :
    Program (net I) Halt SocketStatus :=
  sktSend (headerLen-1) (messageHeader messageLen (narrow command.length)).toList >>= fun _ =>
    sktSend (narrow command.length) command

abbrev record : Interface := ⟨Step,fun _ => Unit⟩

structure Serving where
  status : SocketStatus
  server : Server
  board : Board

def Server.toCommand (self : Server) : Command := ⟨self.command,self.row,self.col,self.value⟩

section Serving
variable (messageLen : Vector UInt8 headerLen)

def sendStrings : List Text → Program (net I) Halt Unit
  | [] => .ret ()
  | t::ts => protocolSendString messageLen t >>= fun _ => sendStrings ts

/-- One turn of `while (socket->status == SKT_RECEPTION_SUCCESS)`. -/
def serveCommand (s : Serving) : Program (net record) Halt (Serving ⊕ Serving) :=
  if s.status = .receptionSuccess then
    match serverProcessCommand s.server s.board with
    | .error f => .fail (.fault f)
    | .ok served =>
      .call (.other ⟨Server.toCommand s.server,s.board,served.board,served.sent⟩) fun _ =>
        sendStrings messageLen served.sent >>= fun _ =>
          protocolReceiveCommand served.self >>= fun r => .ret (.inl ⟨r.1,r.2,served.board⟩)
  else .ret (.inr s)

def serveCommands (n : ℕ) (server : Server) (board : Board) : Program (net record) Halt Serving :=
  protocolReceiveCommand server >>= fun r =>
    Program.iterate .running (serveCommand messageLen) n ⟨r.1,r.2,board⟩

end Serving

def receptionStatus (body : Text) : SocketStatus :=
  if body = [] then .receptionEnd else .receptionSuccess

section Transfers
variable {σ : Type} (d : Delivery) (H : Handler I Halt σ)

theorem overwrite_byte (aux : Vector UInt8 10) (b : UInt8) :
    overwrite aux 0 [b] = aux.set 0 b := by
  apply Vector.ext
  intro i hi
  rw [overwrite_get, Vector.getElem_set]
  by_cases h : i = 0
  · subst h
    simp
  · rw [if_neg (by simp; omega), if_neg (Ne.symm h)]

theorem run_sktReceive_part (len : ℤ) (buf : Vector UInt8 n) (w : Wire) (s : σ)
    (hfit : min len.toNat w.incoming.length ≤ n) :
    ∃ k, run (wired d H) (sktReceive len buf) (w,s) =
      (.ok (receptionStatus (w.incoming.take len.toNat),
        overwrite buf 0 (w.incoming.take len.toNat)),
        ⟨w.incoming.drop len.toNat,w.outgoing,k⟩,s) := by
  obtain ⟨k,hk⟩ := run_recvLoop d H len.toNat buf 0 w s (by omega)
  refine ⟨k,?_⟩
  rw [sktReceive, run_bind, hk, andThen_ok, Nat.zero_add, Nat.sub_zero, run_ret, receptionStatus,
    ← List.length_take]
  by_cases hnil : w.incoming.take len.toNat = []
  · rw [if_pos hnil, if_neg (by simp [hnil])]
  · rw [if_neg hnil, if_pos (List.length_pos_iff.mpr hnil)]

theorem run_sktReceive_overrun (len : ℤ) (buf : Vector UInt8 n) (w : Wire) (s : σ)
    (hover : n < min len.toNat w.incoming.length) :
    (run (wired d H) (sktReceive len buf) (w,s)).1 = .error (.fault .outOfBounds) := by
  rw [sktReceive, run_bind_stops]
  exact .inl (run_recvLoop_overrun d H len.toNat buf 0 w s (Nat.zero_le n) (by omega))

theorem run_receive_byte (aux : Vector UInt8 10) (b : UInt8) (rest out : Text) (k : ℕ) (s : σ) :
    ∃ k', run (wired d H) (sktReceive 1 aux) (⟨b::rest,out,k⟩,s) =
      (.ok (.receptionSuccess,aux.set 0 b),⟨rest,out,k'⟩,s) := by
  rw [← overwrite_byte]
  exact run_sktReceive_part d H 1 aux ⟨b::rest,out,k⟩ s (by simp)

theorem run_receive_end (aux : Vector UInt8 10) (out : Text) (k : ℕ) (s : σ) :
    ∃ k', run (wired d H) (sktReceive 1 aux) (⟨[],out,k⟩,s) =
      (.ok (.receptionEnd,aux),⟨[],out,k'⟩,s) := by
  have hnone := run_sktReceive_part d H 1 aux ⟨[],out,k⟩ s (by simp)
  rw [List.take_nil, overwrite_nil] at hnone
  exact hnone

theorem run_receive_one (aux : Vector UInt8 10) (stream out : Text) (k : ℕ) (s : σ) :
    ∃ status aux' k', run (wired d H) (sktReceive 1 aux) (⟨stream,out,k⟩,s) =
      (.ok (status,aux'),⟨stream.tail,out,k'⟩,s) := by
  cases stream with
  | nil =>
    obtain ⟨k',hk⟩ := run_receive_end d H aux out k s
    exact ⟨_,_,k',hk⟩
  | cons b rest =>
    obtain ⟨k',hk⟩ := run_receive_byte d H aux b rest out k s
    exact ⟨_,_,k',hk⟩

theorem run_sktSend (hd : d.Reliable) (len : ℤ) (buf : Text) (w : Wire) (s : σ) :
    ∃ k, run (wired d H) (sktSend len buf) (w,s) =
      (.ok .sendSuccess,⟨w.incoming,w.outgoing++buf.take len.toNat,k⟩,s) := by
  obtain ⟨k,hk⟩ := run_sendLoop d H hd (buf.take len.toNat) w s
  exact ⟨k,by rw [sktSend, run_bind, hk]; rfl⟩

theorem run_sktSend_ends (len : ℤ) (buf : Text) (w : Wire) (s : σ) :
    ∃ status out k, run (wired d H) (sktSend len buf) (w,s) = (.ok status,⟨w.incoming,out,k⟩,s) := by
  obtain ⟨r,out,k,hk⟩ := run_sendLoop_ends d H (buf.take len.toNat) w s
  rw [sktSend, run_bind, hk]
  cases r with
  | complete => exact ⟨_,out,k,rfl⟩
  | stopped => exact ⟨_,out,k,rfl⟩
  | failed => exact ⟨_,out,k,rfl⟩

theorem run_sendStrings_ends (messageLen : Vector UInt8 headerLen) (ts : List Text) (w : Wire)
    (s : σ) :
    ∃ out k, run (wired d H) (sendStrings messageLen ts) (w,s) = (.ok (),⟨w.incoming,out,k⟩,s) := by
  induction ts generalizing w with
  | nil => exact ⟨w.outgoing,w.calls,rfl⟩
  | cons t ts ih =>
    obtain ⟨status,out,k,hk⟩ := run_sktSend_ends d H (headerLen-1)
      (messageHeader messageLen (narrow t.length)).toList w s
    obtain ⟨status',out',k',hk'⟩ := run_sktSend_ends d H (narrow t.length) t ⟨w.incoming,out,k⟩ s
    obtain ⟨out'',k'',hk''⟩ := ih ⟨w.incoming,out',k'⟩
    refine ⟨out'',k'',?_⟩
    rw [sendStrings, run_bind, protocolSendString, run_bind, hk, andThen_ok, hk', andThen_ok, hk'']

def decode : Text → List Command
  | [] => []
  | c::rest =>
    if c = 'P'.toUInt8 then
      match rest with
      | row::col::value::rest => ⟨c,row,col,value⟩::decode rest
      | _ => []
    else ⟨c,0,0,0⟩::decode rest

/-- The next command of a stream and what follows it. A put that is cut off
leaves nothing. -/
def nextCommand : Text → Option (Command × Text)
  | [] => none
  | c::rest =>
    if c = 'P'.toUInt8 then
      match rest with
      | row::col::value::rest => some (⟨c,row,col,value⟩,rest)
      | _ => none
    else some (⟨c,0,0,0⟩,rest)

theorem decode_next (stream : Text) :
    decode stream = match nextCommand stream with
      | some (c,rest) => c::decode rest
      | none => [] := by
  match stream with
  | [] => rfl
  | c::rest =>
    by_cases hP : c = 'P'.toUInt8
    · match rest with
      | [] => simp [decode, nextCommand, hP]
      | [_] => simp [decode, nextCommand, hP]
      | [_,_] => simp [decode, nextCommand, hP]
      | _::_::_::_ => simp [decode, nextCommand, hP]
    · rw [decode.eq_def (c::rest)]
      simp [nextCommand, hP]

theorem nextCommand_length {stream rest : Text} {c : Command}
    (h : nextCommand stream = some (c,rest)) : rest.length < stream.length := by
  match stream with
  | [] => cases h
  | b::bs =>
    by_cases hP : b = 'P'.toUInt8
    · match bs with
      | [] => simp [nextCommand, hP] at h
      | [_] => simp [nextCommand, hP] at h
      | [_,_] => simp [nextCommand, hP] at h
      | _::_::_::_ =>
        simp only [nextCommand, if_pos hP, Option.some.injEq, Prod.mk.injEq] at h
        rw [← h.2]
        simp only [List.length_cons]
        omega
    · simp only [nextCommand, if_neg hP, Option.some.injEq, Prod.mk.injEq] at h
      rw [← h.2]
      simp

theorem nextCommand_cut {b : UInt8} {bs : Text} (h : nextCommand (b::bs) = none) :
    b = 'P'.toUInt8 ∧ bs.length < 3 := by
  by_cases hP : b = 'P'.toUInt8
  · match bs with
    | [] => exact ⟨hP,by decide⟩
    | [_] => exact ⟨hP,by simp⟩
    | [_,_] => exact ⟨hP,by simp⟩
    | _::_::_::_ => simp [nextCommand, hP] at h
  · simp [nextCommand, hP] at h

theorem run_receivePut (self : Server) (aux : Vector UInt8 10) (row col value : UInt8)
    (rest out : Text) (k : ℕ) (s : σ) :
    ∃ k', run (wired d H) (receivePut self aux) (⟨row::col::value::rest,out,k⟩,s) =
      (.ok (.receptionSuccess,{ self with row, col, value }),⟨rest,out,k'⟩,s) := by
  obtain ⟨k1,h1⟩ := run_receive_byte d H aux row (col::value::rest) out k s
  obtain ⟨k2,h2⟩ := run_receive_byte d H (aux.set 0 row) col (value::rest) out k1 s
  obtain ⟨k3,h3⟩ := run_receive_byte d H ((aux.set 0 row).set 0 col) value rest out k2 s
  refine ⟨k3,?_⟩
  rw [receivePut, run_bind, h1, andThen_ok, run_bind, h2, andThen_ok, run_bind, h3]
  simp

theorem run_receivePut_cut (self : Server) (aux : Vector UInt8 10) (stream out : Text) (k : ℕ)
    (s : σ) (hcut : stream.length < 3) :
    ∃ self' k', run (wired d H) (receivePut self aux) (⟨stream,out,k⟩,s) =
      (.ok (.receptionEnd,self'),⟨[],out,k'⟩,s) := by
  obtain ⟨st1,aux1,k1,h1⟩ := run_receive_one d H aux stream out k s
  obtain ⟨st2,aux2,k2,h2⟩ := run_receive_one d H aux1 stream.tail out k1 s
  have hend : stream.tail.tail = [] := by
    apply List.length_eq_zero_iff.mp
    simp only [List.length_tail]
    omega
  rw [hend] at h2
  obtain ⟨k3,h3⟩ := run_receive_end d H aux2 out k2 s
  refine ⟨{ self with row := aux1[0], col := aux2[0], value := aux2[0] },k3,?_⟩
  rw [receivePut, run_bind, h1, andThen_ok, run_bind, h2, andThen_ok, run_bind, h3]
  rfl

theorem run_receiveCommand {stream rest : Text} {c : Command}
    (hnext : nextCommand stream = some (c,rest)) (self : Server) (out : Text) (k : ℕ) (s : σ) :
    ∃ k', run (wired d H) (protocolReceiveCommand self) (⟨stream,out,k⟩,s) =
      (.ok (.receptionSuccess,self.receive c),⟨rest,out,k'⟩,s) := by
  match stream with
  | [] => cases hnext
  | b::bs =>
    obtain ⟨k1,h1⟩ := run_receive_byte d H receivedAux b bs out k s
    have hb : (receivedAux.set 0 b)[0] = b := by simp
    by_cases hP : b = 'P'.toUInt8
    · match bs with
      | [] => simp [nextCommand, hP] at hnext
      | [_] => simp [nextCommand, hP] at hnext
      | [_,_] => simp [nextCommand, hP] at hnext
      | row::col::value::bs =>
        simp only [nextCommand, if_pos hP, Option.some.injEq, Prod.mk.injEq] at hnext
        rw [← hnext.1, ← hnext.2]
        obtain ⟨k2,h2⟩ := run_receivePut d H { self with command := b } (receivedAux.set 0 b)
          row col value bs out k1 s
        refine ⟨k2,?_⟩
        rw [protocolReceiveCommand, run_bind, h1, andThen_ok, if_pos rfl, hb, if_pos hP, h2,
          Server.receive, if_pos hP]
    · simp only [nextCommand, if_neg hP, Option.some.injEq, Prod.mk.injEq] at hnext
      rw [← hnext.1, ← hnext.2]
      refine ⟨k1,?_⟩
      rw [protocolReceiveCommand, run_bind, h1, andThen_ok, if_pos rfl, hb, if_neg hP,
        Server.receive, if_neg hP]
      rfl

theorem run_receiveCommand_end {stream : Text} (hnext : nextCommand stream = none) (self : Server)
    (out : Text) (k : ℕ) (s : σ) :
    ∃ self' k', run (wired d H) (protocolReceiveCommand self) (⟨stream,out,k⟩,s) =
      (.ok (.receptionEnd,self'),⟨[],out,k'⟩,s) := by
  match stream with
  | [] =>
    obtain ⟨k',hk⟩ := run_receive_end d H receivedAux out k s
    refine ⟨self,k',?_⟩
    rw [protocolReceiveCommand, run_bind, hk]
    rfl
  | b::bs =>
    obtain ⟨k1,h1⟩ := run_receive_byte d H receivedAux b bs out k s
    have hb : (receivedAux.set 0 b)[0] = b := by simp
    obtain ⟨hP,hcut⟩ := nextCommand_cut hnext
    obtain ⟨self',k2,h2⟩ := run_receivePut_cut d H { self with command := b }
      (receivedAux.set 0 b) bs out k1 s hcut
    refine ⟨self',k2,?_⟩
    rw [protocolReceiveCommand, run_bind, h1, andThen_ok, if_pos rfl, hb, if_pos hP, h2]

end Transfers

end Workshop.SudokuProtocol
