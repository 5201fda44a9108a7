import Workshop.OpenConnection
import Workshop.SudokuSession

/-!
# The sudoku server before a client that sends anything

Every stream is a sequence of commands with at most one put that is cut off at
its end. Whoever sends it and however, the server answers each command with one
string, in order, and records it. What an answer relies on is that no command
so far was a put outside the board or a reset of an unterminated one.
-/

set_option autoImplicit false

namespace Workshop.SudokuAnyClient
open Workshop.CMemory Workshop.InteractiveProgram Workshop.ByteChannel Workshop.HalfDuplex
open Workshop.RunAhead Workshop.OpenConnection Workshop.SudokuBoard Workshop.SudokuServer
open Workshop.SudokuRender Workshop.SudokuVerify Workshop.SudokuProtocol Workshop.SudokuWire
open Workshop.SudokuLoad Workshop.SudokuStrings Workshop.SudokuCommands Workshop.SudokuPlay Workshop.SudokuSession

theorem encode_put {c : Command} (h : c.command = 'P'.toUInt8) :
    encodeCommand c = [c.command,c.row,c.col,c.value] := if_pos h

theorem encode_other {c : Command} (h : c.command ≠ 'P'.toUInt8) :
    encodeCommand c = [c.command] := if_neg h

theorem encode_free {c c' : Command} (h : encodeCommand c <+: encodeCommand c') :
    encodeCommand c = encodeCommand c' := by
  have hsame : c.command = c'.command := by
    by_cases hP : c.command = 'P'.toUInt8 <;> by_cases hP' : c'.command = 'P'.toUInt8 <;>
      simp_all [encodeCommand]
  apply h.eq_of_length
  by_cases hP : c.command = 'P'.toUInt8
  · rw [encode_put hP, encode_put (hsame ▸ hP)]
    rfl
  · rw [encode_other hP, encode_other (hsame ▸ hP)]
    rfl

theorem next_word {stream rest : Text} {c : Command} (h : nextCommand stream = some (c,rest)) :
    encodeCommand c++rest = stream := by
  match stream with
  | [] => cases h
  | b::bs =>
    by_cases hP : b = 'P'.toUInt8
    · match bs with
      | [] => simp [nextCommand, hP] at h
      | [_] => simp [nextCommand, hP] at h
      | [_,_] => simp [nextCommand, hP] at h
      | _::_::_::_ =>
        simp only [nextCommand, if_pos hP, Option.some.injEq, Prod.mk.injEq] at h
        rw [← h.1, ← h.2, encode_put hP]
        rfl
    · simp only [nextCommand, if_neg hP, Option.some.injEq, Prod.mk.injEq] at h
      rw [← h.1, ← h.2, encode_other hP]
      rfl

theorem cut_completed {stream : Text} (h : nextCommand stream = none) :
    ∃ c d, stream++d = encodeCommand c := by
  match stream with
  | [] => exact ⟨⟨'V'.toUInt8,0,0,0⟩,['V'.toUInt8],rfl⟩
  | b::bs =>
    obtain ⟨rfl,hlen⟩ := nextCommand_cut h
    match bs with
    | [] => exact ⟨⟨'P'.toUInt8,0,0,0⟩,[0,0,0],rfl⟩
    | [x] => exact ⟨⟨'P'.toUInt8,x,0,0⟩,[0,0],rfl⟩
    | [x,y] => exact ⟨⟨'P'.toUInt8,x,y,0⟩,[0],rfl⟩
    | _::_::_::_ => simp at hlen; omega

theorem encode_nonempty (c : Command) : encodeCommand c ≠ [] := by
  by_cases hP : c.command = 'P'.toUInt8
  · rw [encode_put hP]
    exact List.cons_ne_nil _ _
  · rw [encode_other hP]
    exact List.cons_ne_nil _ _

def commandCode (bound : ℕ) : Code bound where
  word w := ∃ c, w = encodeCommand c
  nonempty := by
    rintro _ ⟨c,rfl⟩
    exact encode_nonempty c
  free := by
    rintro _ _ ⟨c,rfl⟩ ⟨c',rfl⟩ h
    exact encode_free h
  complete t _ := by
    rcases hnext : nextCommand t with _ | ⟨c,rest⟩
    · obtain ⟨c,d,hd⟩ := cut_completed hnext
      exact .inr ⟨d,c,hd⟩
    · exact .inl ⟨_,⟨c,rfl⟩,⟨rest,next_word hnext⟩⟩

theorem cut_commands (bound : ℕ) (stream : Text) :
    ∃ rest, Cut (commandCode bound) stream ((decode stream).map encodeCommand) rest := by
  induction hm : stream.length using Nat.strong_induction_on generalizing stream with
  | _ m ih =>
    subst hm
    rw [decode_next]
    rcases hnext : nextCommand stream with _ | ⟨c,rest⟩
    · refine ⟨stream,fun c hc => absurd hc List.not_mem_nil,rfl,?_⟩
      rintro _ ⟨c,rfl⟩ ⟨more,rfl⟩
      obtain ⟨c',hc',-⟩ := next_encode c more
      rw [hnext] at hc'
      cases hc'
    · obtain ⟨tail,hwords,hjoin,hopen⟩ := ih rest.length (nextCommand_length hnext) rest rfl
      refine ⟨tail,List.forall_mem_cons.mpr ⟨⟨c,rfl⟩,hwords⟩,?_,hopen⟩
      rw [List.map_cons, List.flatten_cons, List.append_assoc, hjoin, next_word hnext]

structure Recorded where
  server : Server
  board : Board
  log : List Step

def Recorded.record (s : Recorded) (c : Command) (served : Served) : Recorded :=
  ⟨served.self,served.board,
    s.log++[⟨Server.toCommand (s.server.receive c),s.board,served.board,served.sent⟩]⟩

def processing : Machine Recorded where
  after s w :=
    match nextCommand w with
    | some (c,_) =>
      match serverProcessCommand (s.server.receive c) s.board with
      | .ok served => s.record c served
      | .error _ => s
    | none => s
  answer s w :=
    match nextCommand w with
    | some (c,_) =>
      match serverProcessCommand (s.server.receive c) s.board with
      | .ok served => served.sent.flatMap frame
      | .error _ => []
    | none => []
  stopped _ := false

section Commands
variable {s : Recorded} {c : Command} {served : Served}

theorem word_next (s : Server) (c : Command) :
    ∃ c', nextCommand (encodeCommand c) = some (c',[]) ∧ s.receive c' = s.receive c := by
  obtain ⟨c',hnext,hsame⟩ := next_encode c []
  rw [List.append_nil] at hnext
  exact ⟨c',hnext,receive_same s hsame⟩

theorem processing_after (hp : serverProcessCommand (s.server.receive c) s.board = .ok served) :
    processing.after s (encodeCommand c) = s.record c served := by
  obtain ⟨c',hnext,hsame⟩ := word_next s.server c
  simp only [processing, hnext, hsame, hp, Recorded.record]

theorem processing_answer (hp : serverProcessCommand (s.server.receive c) s.board = .ok served) :
    processing.answer s (encodeCommand c) = served.sent.flatMap frame := by
  obtain ⟨c',hnext,hsame⟩ := word_next s.server c
  simp only [processing, hnext, hsame, hp]

def replies (steps : List Step) : Text := (steps.flatMap Step.sent).flatMap frame

structure Follows (s s' : Recorded) (cs later : List Command) (steps done rest : List Step) :
    Prop where
  steps : steps = done++rest
  run : serverRun s'.server s'.board later = .ok rest
  log : ∃ log, s'.log = s.log++log ∧ List.Forall₂ SameStep log done
  said : processing.said s (cs.map encodeCommand) = replies done

theorem processing_follows {cs later : List Command} {steps : List Step}
    (h : serverRun s.server s.board (cs++later) = .ok steps) :
    ∃ done rest, Follows s (processing.reached s (cs.map encodeCommand)) cs later steps done rest := by
  induction cs generalizing s steps with
  | nil => exact ⟨[],steps,rfl,h,⟨[],(List.append_nil _).symm,.nil⟩,rfl⟩
  | cons c cs ih =>
    rw [List.cons_append, serverRun] at h
    obtain ⟨served,hp,h⟩ := bind_eq_ok h
    obtain ⟨more,hmore,h⟩ := bind_eq_ok h
    cases h
    have hnext : serverRun (s.record c served).server (s.record c served).board (cs++later) =
        .ok more := hmore
    obtain ⟨done,rest,hsteps,hrun,⟨log,hlog,hsame⟩,hsaid⟩ := ih hnext
    have hreached : processing.reached s ((c::cs).map encodeCommand) =
        processing.reached (s.record c served) (cs.map encodeCommand) := by
      rw [List.map_cons, Machine.reached, if_neg (by simp [processing]), processing_after hp]
    rw [hreached]
    refine ⟨⟨c,s.board,served.board,served.sent⟩::done,rest,?_,hrun,?_,?_⟩
    · rw [hsteps, List.cons_append]
    · refine ⟨⟨Server.toCommand (s.server.receive c),s.board,served.board,served.sent⟩::log,?_,
        .cons ⟨same_receive s.server c,rfl,rfl,rfl⟩ hsame⟩
      rw [hlog, Recorded.record, List.append_assoc]
      rfl
    · rw [List.map_cons, Machine.said, if_neg (by simp [processing]), processing_answer hp,
        processing_after hp, hsaid, replies, replies, List.flatMap_cons, List.flatMap_append]

theorem cString_length {n : ℕ} {a : Vector UInt8 n} {t : Text} (h : cString a = .ok t) :
    t.length ≤ n := by
  rw [cString] at h
  split at h
  · cases h
    exact (List.takeWhile_prefix _).length_le.trans (Vector.length_toList).le
  · cases h

theorem sendBoard_length {b : Board} {t : Text} (h : serverSendBoard b = .ok t) :
    t.length < 1000 := by
  obtain ⟨sb,-,h⟩ := bind_eq_ok h
  have hle := cString_length h
  have hsize : boardSentSize = 723 := rfl
  omega

theorem board_sent {b : Board} {self : Server}
    (h : (serverSendBoard b >>= fun sb => .ok ⟨self,b,[sb]⟩) = (.ok served : Checked Served)) :
    ∃ t, served.sent = [t] ∧ t.length < 1000 := by
  obtain ⟨sb,hsb,h⟩ := bind_eq_ok h
  cases h
  exact ⟨sb,rfl,sendBoard_length hsb⟩

theorem process_sent {self : Server} {b : Board} (h : serverProcessCommand self b = .ok served) :
    ∃ t, served.sent = [t] ∧ t.length < 1000 := by
  rw [serverProcessCommand] at h
  split at h
  · obtain ⟨b',-,h⟩ := bind_eq_ok h
    split at h
    · cases h
      exact ⟨_,rfl,by decide⟩
    · exact board_sent h
  split at h
  · obtain ⟨b',-,h⟩ := bind_eq_ok h
    split at h
    · cases h
      exact ⟨_,rfl,by decide⟩
    · cases h
      exact ⟨_,rfl,by decide⟩
  split at h
  · obtain ⟨b',-,h⟩ := bind_eq_ok h
    exact board_sent h
  split at h
  · exact board_sent h
  split at h
  · cases h
    exact ⟨_,rfl,by decide⟩
  · cases h
    exact ⟨_,rfl,by decide⟩

end Commands

section Serving
variable (messageLen : Vector UInt8 headerLen) (game : SudokuStatus)

/-- A command outside the board stops the program behind its reception. -/
theorem serverLoop_faults (n : ℕ) {self : Server} {b : Board} {c : Command} {f : Fault}
    (hp : serverProcessCommand (self.receive c) b = .error f) :
    Takes (serverLoop messageLen game (n+1) self b) (encodeCommand c) (.fail (.fault f)) := by
  rw [serverLoop, serveCommands, Program.bind_bind]
  apply takes_last (receiveCommand_takes self c)
  rw [Program.iterate, serveCommand, if_pos rfl, hp]
  rfl

theorem serverLoop_emits (n : ℕ) {s : Recorded} {c : Command} {served : Served}
    (hp : serverProcessCommand (s.server.receive c) s.board = .ok served) :
    ∃ q, Takes (serverLoop messageLen game (n+1) s.server s.board) (encodeCommand c) q ∧
      Emits logging q s.log (processing.answer s (encodeCommand c))
        (serverLoop messageLen game n (s.record c served).server (s.record c served).board)
        (s.record c served).log := by
  obtain ⟨t,hsent,hlen⟩ := process_sent hp
  obtain ⟨self,b,sent⟩ := served
  subst hsent
  refine ⟨_,serverLoop_takes messageLen game n hp,?_⟩
  rw [processing_answer hp, List.flatMap_singleton]
  apply Emits.other rfl
  have hsend : Sends (sendStrings messageLen [t] : Program (net record) Halt Unit) (frame t)
      (.ret ()) := sends_last (sendString_sends messageLen hlen) rfl
  exact emits_sends (sends_last hsend rfl)

def conduct (bound : ℕ) : Conduct logging (Serving × SudokuStatus) Recorded bound where
  code := commandCode bound
  machine := processing
  state := Recorded.log
  able s w := ∀ c, w = encodeCommand c →
    ∃ served, serverProcessCommand (s.server.receive c) s.board = .ok served
  ready j s p := ∃ m, j ≤ m ∧ p = serverLoop messageLen game m s.server s.board
  leaves _ _ _ _ h := by cases h
  waits := by
    rintro j s p ⟨m,-,rfl⟩ -
    exact serverLoop_waiting messageLen game m s.server s.board
  serves := by
    rintro j s p _ ⟨m,hm,rfl⟩ - ⟨c,rfl⟩
    obtain ⟨m,rfl⟩ : ∃ i, m = i+1 := ⟨m-1,by omega⟩
    cases hp : serverProcessCommand (s.server.receive c) s.board with
    | error f =>
      refine ⟨_,serverLoop_faults messageLen game m hp,?_⟩
      intro hable
      obtain ⟨served,hok⟩ := hable c rfl
      cases hp.symm.trans hok
    | ok served =>
      obtain ⟨q,htakes,hemits⟩ := serverLoop_emits messageLen game m hp
      rw [processing_after hp]
      exact ⟨q,htakes,fun _ => ⟨_,hemits,m,by omega,rfl⟩⟩

end Serving

/-- All commands are answered and recorded, and the server waits for the next one. -/
structure Answered (steps : List Step) (u : Open record (Serving × SudokuStatus) (List Step)) :
    Prop where
  sent : u.sent = replies steps
  recorded : List.Forall₂ SameStep u.here.state steps
  waits : Waiting u.here.program
  inbox : u.inbox = []

section Client
variable {messageLen : Vector UInt8 headerLen} {game : SudokuStatus} {bound : ℕ} {server : Server}
  {b : Board}

theorem receive_word (self : Server) {c c' : Command} (h : encodeCommand c = encodeCommand c') :
    self.receive c = self.receive c' := by
  obtain ⟨d,hd,hsame⟩ := word_next self c
  obtain ⟨d',hd',hsame'⟩ := word_next self c'
  rw [h, hd'] at hd
  cases hd
  exact hsame.symm.trans hsame'

theorem able_run {stream : Text} {steps : List Step}
    (hrun : serverRun server b (decode stream) = .ok steps) :
    Able (conduct messageLen game bound) ⟨server,b,[]⟩ stream := by
  obtain ⟨rest,hcut⟩ : ∃ rest, Cut (conduct messageLen game bound).code stream
    ((decode stream).map encodeCommand) rest := cut_commands bound stream
  apply able_words hcut
  intro ws w vs hvs _ c hc
  subst hc
  obtain ⟨done,later,hdecode,rfl,hlater⟩ := List.map_eq_append_iff.mp hvs.symm
  obtain ⟨c',later,rfl,hword,-⟩ := List.map_eq_cons_iff.mp hlater
  rw [hdecode] at hrun
  have hstart : serverRun (Recorded.mk server b []).server (Recorded.mk server b []).board
      (done++c'::later) = .ok steps := hrun
  obtain ⟨_,_,hfollows⟩ := processing_follows hstart
  obtain ⟨served,hp,-⟩ := bind_eq_ok hfollows.run
  rw [receive_word _ hword] at hp
  exact ⟨served,hp⟩

omit messageLen game bound in
theorem processing_all {cs : List Command} {steps : List Step}
    (hrun : serverRun server b cs = .ok steps) :
    List.Forall₂ SameStep (processing.reached ⟨server,b,[]⟩ (cs.map encodeCommand)).log steps ∧
      processing.said ⟨server,b,[]⟩ (cs.map encodeCommand) = replies steps := by
  have hstart : serverRun (Recorded.mk server b []).server (Recorded.mk server b []).board
      (cs++[]) = .ok steps := by rwa [List.append_nil]
  obtain ⟨done,rest,hsteps,hrest,⟨log,hlog,hsame⟩,hsaid⟩ := processing_follows hstart
  cases hrest
  rw [List.append_nil] at hsteps
  rw [List.nil_append] at hlog
  rw [hlog, hsteps]
  exact ⟨hsame,hsaid⟩

theorem settled_answered {steps : List Step}
    {u : Open record (Serving × SudokuStatus) (List Step)}
    (hrun : serverRun server b (decode u.stream) = .ok steps)
    (h : Settled (conduct messageLen game bound) ⟨server,b,[]⟩ []
      ((decode u.stream).map encodeCommand) u) : Answered steps u := by
  obtain ⟨hsame,hsaid⟩ := processing_all hrun
  obtain ⟨hwait,hin⟩ := h.waits rfl
  constructor
  · rw [h.sent]
    exact hsaid
  · rw [h.state]
    exact hsame
  · exact hwait
  · exact hin

end Client

/-- Whatever a client sends and whenever, the server has sent an initial part
of the answers to the commands that have come, and nothing else. When it has no
step left it has answered and recorded all of them, and it waits. -/
theorem any_player_served (messageLen : Vector UInt8 headerLen) (game : SudokuStatus)
    {server : Server} {board b : Board} {file : Option Text}
    (hread : serverBoardRead board file = .ok b) {n : ℕ}
    {u : Open record (Serving × SudokuStatus) (List Step)}
    (h : Relation.ReflTransGen (Moves logging)
      (opened (sudokuRunServer messageLen n server board file game) []) u)
    (hturns : u.stream.length < n) {steps : List Step}
    (hrun : serverRun server b (decode u.stream) = .ok steps) :
    u.sent <+: replies steps ∧ (Still logging u → Answered steps u) ∧
    (¬ ∃ run : ℕ → Open record (Serving × SudokuStatus) (List Step), run 0 = u ∧
      ∀ k, Own logging (run k) (run (k+1))) ∧
    ∃ v, Relation.ReflTransGen (Own logging) u v ∧ v.stream = u.stream ∧ Answered steps v := by
  have hstart : sudokuRunServer messageLen n server board file game =
      serverLoop messageLen game n server b := by
    rw [sudokuRunServer, hread]
    rfl
  have hready : (conduct messageLen game n).ready n ⟨server,b,[]⟩
      (sudokuRunServer messageLen n server board file game) := ⟨n,le_rfl,hstart⟩
  obtain ⟨rest,hcut⟩ := cut_commands n u.stream
  obtain ⟨hsent,hstill,hfinite,v,hv,hstream,hsettled⟩ := open_answers
    (conduct messageLen game n) (.done _ _) hready h hturns (able_run hrun) hcut
  refine ⟨?_,fun hu => settled_answered hrun (hstill hu),hfinite,v,hv,hstream,?_⟩
  · rw [← (processing_all hrun).2]
    exact hsent
  · rw [← hstream] at hrun hsettled
    exact settled_answered hrun hsettled

theorem harmless_run {b : Board} (hb : DigitCells b.board) (ho : DigitCells b.boardOriginal)
    {cs : List Command} (hcs : ∀ c ∈ cs, Harmless b.boardOriginal c) (self : Server) :
    ∃ steps, serverRun self b cs = .ok steps := by
  induction cs generalizing self b with
  | nil => exact ⟨[],rfl⟩
  | cons c cs ih =>
    obtain ⟨hc,hcs⟩ := List.forall_mem_cons.mp hcs
    obtain ⟨served,hp,hd,hor⟩ :=
      process_harmless hb ho ((harmless_receive b.boardOriginal self c).mpr hc)
    obtain ⟨steps,hsteps⟩ := ih hd (hor ▸ ho) (hor ▸ hcs) served.self
    exact ⟨_,by rw [serverRun, hp, ok_bind, hsteps, ok_bind]⟩

/-- An unknown command, a put that comes in two parts, a verification, an exit,
which the server does not know either, and the start of another put. -/
theorem any_player_served_put :
    ∃ (v : Open record (Serving × SudokuStatus) (List Step)) (steps : List Step),
      Relation.ReflTransGen (Moves logging)
        (opened (sudokuRunServer (Vector.replicate headerLen 0) 10 ⟨0,0,0,0,.ok⟩ (blankBoard .ok)
          (some emptyFile) .argsOk) []) v ∧
      v.stream = text "xP"++[1]++([2,5]++text "VEP") ∧
      serverRun ⟨0,0,0,0,.ok⟩ emptyBoard [⟨'x'.toUInt8,0,0,0⟩,⟨'P'.toUInt8,1,2,5⟩,
        ⟨'V'.toUInt8,0,0,0⟩,⟨'E'.toUInt8,0,0,0⟩] = .ok steps ∧ Answered steps v := by
  let first : Text := text "xP"++[1]
  let second : Text := [2,5]++text "VEP"
  have hrun := arrives_run logging (sudokuRunServer (Vector.replicate headerLen 0) 10
    ⟨0,0,0,0,.ok⟩ (blankBoard .ok) (some emptyFile) .argsOk) [] first second
  have hdecode : decode (first++second) = [⟨'x'.toUInt8,0,0,0⟩,⟨'P'.toUInt8,1,2,5⟩,
      ⟨'V'.toUInt8,0,0,0⟩,⟨'E'.toUInt8,0,0,0⟩] := by decide
  have hharmless : ∀ c ∈ decode (first++second), Harmless emptyBoard.boardOriginal c := by
    rw [hdecode]
    simp only [List.forall_mem_cons]
    have hother : ∀ b : UInt8, b ≠ 'P'.toUInt8 → b ≠ 'R'.toUInt8 →
        Harmless emptyBoard.boardOriginal ⟨b,0,0,0⟩ :=
      fun b hP hR => ⟨fun h => absurd h hP,fun h => absurd h hR⟩
    have hput : Harmless emptyBoard.boardOriginal ⟨'P'.toUInt8,1,2,5⟩ :=
      ⟨fun _ => ⟨2,by decide,fun _ _ => by decide⟩,fun h => absurd h (by decide)⟩
    exact ⟨hother _ (by decide) (by decide),hput,hother _ (by decide) (by decide),
      hother _ (by decide) (by decide),fun _ h => by cases h⟩
  obtain ⟨steps,hsteps⟩ := harmless_run emptyBoard_digits emptyBoard_digits hharmless ⟨0,0,0,0,.ok⟩
  have hread := (serverBoardRead_iff .ok emptyFile emptyBoard).mpr emptyBoard_loaded.eq
  obtain ⟨-,-,-,v,hv,hstream,hanswered⟩ := any_player_served (Vector.replicate headerLen 0) .argsOk
    hread hrun (by decide) hsteps
  rw [hdecode] at hsteps
  exact ⟨v,steps,hrun.trans (own_moves hv),hstream,hsteps,hanswered⟩

end Workshop.SudokuAnyClient
