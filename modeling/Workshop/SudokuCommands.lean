import Workshop.SudokuWire

/-!
# Commands from the client to the server

What one side sends, the other receives, and of a stream that ends early the
server acts on the complete commands only. A command that is no put leaves the
arguments of an earlier one in place, so arguments are compared for a put only.
-/

set_option autoImplicit false

namespace Workshop.SudokuCommands
open Workshop.CMemory Workshop.InteractiveProgram Workshop.ByteChannel
open Workshop.SudokuBoard Workshop.SudokuServer Workshop.SudokuProtocol Workshop.SudokuWire

def sendCommands {I : Interface} : List Command → Program (net I) Halt Unit
  | [] => .ret ()
  | c::cs => protocolSendCommand c >>= fun _ => sendCommands cs

def receiveCommand {I : Interface} (s : Server × List Command) :
    Program (net I) Halt ((Server × List Command) ⊕ (List Command × SocketStatus)) :=
  protocolReceiveCommand s.1 >>= fun r =>
    if r.1 = .receptionSuccess then .ret (.inl (r.2,s.2++[Server.toCommand r.2]))
    else .ret (.inr (s.2,r.1))

def receiveCommands {I : Interface} (n : ℕ) (self : Server) :
    Program (net I) Halt (List Command × SocketStatus) :=
  Program.iterate .running receiveCommand n (self,[])

def SameCommand (a b : Command) : Prop :=
  a.command = b.command ∧
    (b.command = 'P'.toUInt8 → a.row = b.row ∧ a.col = b.col ∧ a.value = b.value)

def encodeCommand (c : Command) : Text :=
  if c.command = 'P'.toUInt8 then [c.command,c.row,c.col,c.value] else [c.command]

def encode (cs : List Command) : Text := cs.flatMap encodeCommand

@[simp] theorem encode_cons (c : Command) (cs : List Command) :
    encode (c::cs) = encodeCommand c++encode cs := rfl

theorem same_receive (self : Server) (c : Command) :
    SameCommand (Server.toCommand (self.receive c)) c := by
  constructor
  · exact receive_command self c
  · intro hP
    simp [Server.toCommand, Server.receive, hP]

theorem same_trans {a b c : Command} (h : SameCommand a b) (h' : SameCommand b c) :
    SameCommand a c := by
  refine ⟨h.1.trans h'.1,?_⟩
  intro hP
  have h1 := h.2 (h'.1.trans hP)
  have h2 := h'.2 hP
  exact ⟨h1.1.trans h2.1,h1.2.1.trans h2.2.1,h1.2.2.trans h2.2.2⟩

theorem next_encode (c : Command) (rest : Text) :
    ∃ c', nextCommand (encodeCommand c++rest) = some (c',rest) ∧ SameCommand c' c := by
  by_cases hP : c.command = 'P'.toUInt8
  · refine ⟨c,?_,rfl,fun _ => ⟨rfl,rfl,rfl⟩⟩
    simp only [encodeCommand, if_pos hP, List.cons_append, List.nil_append, nextCommand]
  · refine ⟨⟨c.command,0,0,0⟩,?_,rfl,fun h => absurd h hP⟩
    simp [encodeCommand, nextCommand, hP]

theorem next_cut (c : Command) (rest : Text) (m : ℕ) (hm : m < (encodeCommand c).length) :
    nextCommand ((encodeCommand c++rest).take m) = none := by
  rw [List.take_append_of_le_length hm.le]
  by_cases hP : c.command = 'P'.toUInt8
  · simp only [encodeCommand, if_pos hP, List.length_cons, List.length_nil] at hm ⊢
    interval_cases m <;> simp [nextCommand, hP]
  · simp only [encodeCommand, if_neg hP, List.length_cons, List.length_nil] at hm ⊢
    interval_cases m
    rfl

/-- Of a prefix exactly the commands are decoded that lie inside it. -/
theorem decode_prefix (cs : List Command) (m : ℕ) :
    ∃ j ≤ cs.length, (encode (cs.take j)).length ≤ m ∧
      (j = cs.length ∨ m < (encode (cs.take (j+1))).length) ∧
      List.Forall₂ SameCommand (decode ((encode cs).take m)) (cs.take j) := by
  induction cs generalizing m with
  | nil => exact ⟨0,le_rfl,by simp [encode],.inl rfl,by simp [encode, decode]⟩
  | cons c cs ih =>
    rw [encode_cons]
    by_cases hm : (encodeCommand c).length ≤ m
    · obtain ⟨j,hj,hin,hout,hsame⟩ := ih (m-(encodeCommand c).length)
      obtain ⟨c',hnext,hc⟩ := next_encode c ((encode cs).take (m-(encodeCommand c).length))
      refine ⟨j+1,by simpa using hj,?_,?_,?_⟩
      · simp only [List.take_succ_cons, encode_cons, List.length_append]
        omega
      · rcases hout with rfl | hout
        · exact .inl rfl
        · right
          simp only [List.take_succ_cons, encode_cons, List.length_append]
          omega
      · rw [List.take_append, List.take_of_length_le hm, decode_next, hnext, List.take_succ_cons]
        exact .cons hc hsame
    · have hcut := next_cut c (encode cs) m (by omega)
      refine ⟨0,by simp,by simp [encode],?_,?_⟩
      · right
        simp [encode]
        omega
      · rw [decode_next, hcut]
        simp

section Transfers
variable {I : Interface} {σ : Type} (d : Delivery) (H : Handler I Halt σ)

theorem run_send_byte (hd : d.Reliable) (b : UInt8) (stream out : Text) (k : ℕ) (s : σ) :
    ∃ k', run (wired d H) (sktSend 1 [b]) (⟨stream,out,k⟩,s) =
      (.ok .sendSuccess,⟨stream,out++[b],k'⟩,s) :=
  run_sktSend d H hd 1 [b] ⟨stream,out,k⟩ s

theorem run_sendCommand (hd : d.Reliable) (c : Command) (w : Wire) (s : σ) :
    ∃ status k, run (wired d H) (protocolSendCommand c) (w,s) =
      (.ok status,⟨w.incoming,w.outgoing++encodeCommand c,k⟩,s) := by
  obtain ⟨k1,h1⟩ := run_send_byte d H hd c.command w.incoming w.outgoing w.calls s
  by_cases hP : c.command = 'P'.toUInt8
  · obtain ⟨k2,h2⟩ := run_send_byte d H hd c.row w.incoming (w.outgoing++[c.command]) k1 s
    obtain ⟨k3,h3⟩ := run_send_byte d H hd c.col w.incoming (w.outgoing++[c.command]++[c.row]) k2 s
    obtain ⟨k4,h4⟩ := run_send_byte d H hd c.value w.incoming
      (w.outgoing++[c.command]++[c.row]++[c.col]) k3 s
    refine ⟨.sendSuccess,k4,?_⟩
    rw [protocolSendCommand, run_bind, h1, andThen_ok, if_pos hP, run_bind, h2, andThen_ok,
      run_bind, h3, andThen_ok, h4, encodeCommand, if_pos hP]
    simp
  · refine ⟨.sendSuccess,k1,?_⟩
    rw [protocolSendCommand, run_bind, h1, andThen_ok, if_neg hP, encodeCommand, if_neg hP]
    rfl

theorem run_sendCommands (hd : d.Reliable) (cs : List Command) (w : Wire) (s : σ) :
    ∃ k, run (wired d H) (sendCommands cs) (w,s) =
      (.ok (),⟨w.incoming,w.outgoing++encode cs,k⟩,s) := by
  induction cs generalizing w with
  | nil => exact ⟨w.calls,by simp [sendCommands, encode]⟩
  | cons c cs ih =>
    obtain ⟨status,k1,h1⟩ := run_sendCommand d H hd c w s
    obtain ⟨k,hk⟩ := ih ⟨w.incoming,w.outgoing++encodeCommand c,k1⟩
    refine ⟨k,?_⟩
    rw [sendCommands, run_bind, h1, andThen_ok, hk, List.append_assoc, encode_cons]

theorem run_receiveCommands (self : Server) (got : List Command) (stream out : Text) (k : ℕ)
    (s : σ) (n : ℕ) (hn : (decode stream).length < n) :
    ∃ cs status w, run (wired d H) (Program.iterate .running receiveCommand n (self,got))
        (⟨stream,out,k⟩,s) = (.ok (got++cs,status),w,s) ∧
      status ≠ .receptionSuccess ∧ List.Forall₂ SameCommand cs (decode stream) := by
  induction n generalizing self got stream k with
  | zero => exact absurd hn (Nat.not_lt_zero _)
  | succ n ih =>
    rw [decode_next] at hn ⊢
    rcases hnext : nextCommand stream with _ | ⟨c,rest⟩
    · obtain ⟨self',k',hk⟩ := run_receiveCommand_end d H hnext self out k s
      refine ⟨[],.receptionEnd,⟨[],out,k'⟩,?_,nofun,.nil⟩
      rw [Program.iterate, receiveCommand, run_bind, run_bind, hk]
      simp
    · obtain ⟨k',hk⟩ := run_receiveCommand d H hnext self out k s
      simp only [hnext, List.length_cons] at hn
      obtain ⟨cs,status,w,hrun,hstatus,hsame⟩ := ih (self.receive c)
        (got++[Server.toCommand (self.receive c)]) rest k' (by omega)
      refine ⟨Server.toCommand (self.receive c)::cs,status,w,?_,hstatus,
        .cons (same_receive self c) hsame⟩
      rw [Program.iterate, receiveCommand, run_bind, run_bind, hk]
      simp [hrun]

end Transfers

/-- What the server acts on is a prefix of the commands of the stream. -/
theorem serving_commands (d : Delivery) (messageLen : Vector UInt8 headerLen) (n : ℕ)
    (self : Server) (b : Board) (w : Wire) (log : List Step) :
    ∃ l steps, (serving d messageLen n self b w log).2.2 = log++steps ∧
      List.Forall₂ SameCommand (steps.map Step.command) ((decode w.incoming).take l) := by
  induction n generalizing self b w log with
  | zero => exact ⟨0,[],by rw [(serving_none d messageLen self b w log).1]; simp,by simp⟩
  | succ n ih =>
    rcases hnext : nextCommand w.incoming with _ | ⟨c,rest⟩
    · exact ⟨0,[],by rw [(serving_end d messageLen self b hnext (n+1) log).1]; simp,by simp⟩
    · rcases hp : serverProcessCommand (self.receive c) b with f | served
      · exact ⟨0,[],by rw [(serving_fault d messageLen self b hnext hp n log).2]; simp,by simp⟩
      · obtain ⟨out,k,hrun⟩ := serving_next d messageLen self b hnext hp log
        obtain ⟨l,steps,hlog,hsame⟩ := ih served.self served.board ⟨rest,out,k⟩
          (log++[⟨Server.toCommand (self.receive c),b,served.board,served.sent⟩])
        refine ⟨l+1,⟨Server.toCommand (self.receive c),b,served.board,served.sent⟩::steps,?_,?_⟩
        · rw [hrun n, hlog]
          simp
        · rw [decode_next, hnext, List.take_succ_cons]
          exact .cons (same_receive self c) hsame

theorem forall₂_same_trans {as bs cs : List Command} (h : List.Forall₂ SameCommand as bs)
    (h' : List.Forall₂ SameCommand bs cs) : List.Forall₂ SameCommand as cs := by
  induction h generalizing cs with
  | nil =>
    cases h'
    exact .nil
  | cons hab _ ih =>
    cases h' with
    | cons hbc h' => exact .cons (same_trans hab hbc) (ih h')

def sentBytes (d : Delivery) (cs : List Command) : Text :=
  (run (wired d logging) (sendCommands cs) (⟨[],[],0⟩,[])).2.1.outgoing

theorem sentBytes_eq {d : Delivery} (hd : d.Reliable) (cs : List Command) :
    sentBytes d cs = encode cs := by
  obtain ⟨k,hk⟩ := run_sendCommands d logging hd cs ⟨[],[],0⟩ []
  rw [sentBytes, hk]
  rfl

/-- Of a stream that is cut after `m` bytes, exactly the commands that lie
inside are received, and the server processes no other. -/
theorem commands_received (d d' : Delivery) (hd : d.Reliable) (cs : List Command) (m : ℕ)
    (self : Server) :
    ∃ j ≤ cs.length, (sentBytes d (cs.take j)).length ≤ m ∧
      (j = cs.length ∨ m < (sentBytes d (cs.take (j+1))).length) ∧
      (∀ n, cs.length < n → ∃ got status w,
        run (wired d' logging) (receiveCommands n self) (⟨(sentBytes d cs).take m,[],0⟩,[]) =
          (.ok (got,status),w,[]) ∧
        status ≠ .receptionSuccess ∧ List.Forall₂ SameCommand got (cs.take j)) ∧
      ∀ messageLen n b, ∃ l, List.Forall₂ SameCommand
        ((serving d' messageLen n self b ⟨(sentBytes d cs).take m,[],0⟩ []).2.2.map Step.command)
        ((cs.take j).take l) := by
  obtain ⟨j,hj,hin,hout,hsame⟩ := decode_prefix cs m
  simp only [sentBytes_eq hd]
  refine ⟨j,hj,hin,hout,?_,?_⟩
  · intro n hn
    have hlen := hsame.length_eq
    rw [List.length_take] at hlen
    obtain ⟨got,status,w,hrun,hstatus,hgot⟩ := run_receiveCommands d' logging self []
      ((encode cs).take m) [] 0 [] n (by omega)
    exact ⟨got,status,w,hrun,hstatus,forall₂_same_trans hgot hsame⟩
  · intro messageLen n b
    obtain ⟨l,steps,hlog,hsteps⟩ :=
      serving_commands d' messageLen n self b ⟨(encode cs).take m,[],0⟩ []
    refine ⟨l,?_⟩
    rw [hlog]
    exact forall₂_same_trans hsteps (List.forall₂_take l hsame)

theorem commands_received_put :
    ∃ got status w, run (wired byteByByte logging) (receiveCommands 3 ⟨0,0,0,0,.ok⟩)
        (⟨(sentBytes byteByByte [⟨'P'.toUInt8,1,2,3⟩,⟨'P'.toUInt8,4,5,6⟩]).take 7,[],0⟩,[]) =
      (.ok (got,status),w,[]) ∧ got.length = 1 := by
  obtain ⟨j,hj,hin,hout,hgot,-⟩ := commands_received byteByByte byteByByte byteByByte_reliable
    [⟨'P'.toUInt8,1,2,3⟩,⟨'P'.toUInt8,4,5,6⟩] 7 ⟨0,0,0,0,.ok⟩
  obtain ⟨got,status,w,hrun,-,hsame⟩ := hgot 3 (by decide)
  refine ⟨got,status,w,hrun,?_⟩
  simp only [sentBytes_eq byteByByte_reliable] at hin hout
  have h1 : j = 1 := by
    have hj2 : j ≤ 2 := hj
    interval_cases j
    · simp [encode, encodeCommand] at hout
    · rfl
    · simp [encode, encodeCommand] at hin
  rw [hsame.length_eq, h1]
  rfl

end Workshop.SudokuCommands
