import Workshop.SudokuGame
import Workshop.SudokuPlay

/-!
# A whole session of the sudoku programs

What the client typed and what the server did are compared through the parser
and `server_process_command` alone. Line by line both programs get from a quiet
connection to a quiet connection again, in every interleaving and however the
transfers are cut.
-/

set_option autoImplicit false

namespace Workshop.SudokuSession
open Workshop.CMemory Workshop.InteractiveProgram Workshop.ByteChannel
open Workshop.SudokuBoard Workshop.SudokuServer Workshop.SudokuLoad Workshop.SudokuGame
open Workshop.SudokuProtocol Workshop.SudokuStrings Workshop.SudokuClient Workshop.SudokuWire
open Workshop.SudokuCommands Workshop.SudokuRender Workshop.SudokuPlay
open Workshop.HalfDuplex hiding Step

/-- The lines which the parser marks valid, as the client they leave, before
the first that makes the command an exit. -/
def typed (self : Client) : List Text → List Client
  | [] => []
  | line::lines =>
    match clientCommandProcess { self with status := .ok }
        (readInto (Vector.replicate maxCommandLength 1) line) with
    | .error _ => []
    | .ok (self,_) =>
      if self.status = .commandValid then
        if self.command = 'E'.toUInt8 then [] else self::typed self lines
      else typed self lines

def SameStep (a b : Step) : Prop :=
  SameCommand a.command b.command ∧ a.before = b.before ∧ a.after = b.after ∧ a.sent = b.sent

def Shown (st : Step) (shown : Text) : Prop := ∃ t, st.sent = [t] ∧ shown = t.dropLast++[newline]

/-- The server has processed these commands and no others, and the client has
shown one answer for each of them. -/
structure Recorded (server : Server) (b : Board) (commands : List Command) (log : List Step)
    (printed : List Text) (steps : List Step) : Prop where
  run : serverRun server b commands = .ok steps
  processed : List.Forall₂ SameStep log steps
  shown : List.Forall₂ Shown steps printed

/-- A typed line: its only newline ends it, and it fits the buffers. -/
structure Typeable (line : Text) : Prop where
  ends : InputLine line
  length : line.length ≤ 19
  nonzero : (0:UInt8) ∉ line

theorem processPut_command {self self' : Client} {s : Text} {errors : List Text}
    (h : processPut self s = .ok (self',errors)) : self'.command = self.command := by
  rw [processPut] at h
  obtain ⟨word,_,h⟩ := bind_eq_ok h
  split at h
  · obtain ⟨word',_,h⟩ := bind_eq_ok h
    split at h
    · obtain ⟨word'',_,h⟩ := bind_eq_ok h
      split at h <;> cases h <;> rfl
    · cases h
      rfl
  · cases h
    rfl

theorem kept_command {self self' : Client} {command : Vector UInt8 maxCommandLength}
    {line : Text} {errors : List Text} (hself : self.status = .ok) (hline : Typeable line)
    (h : clientCommandProcess self (readInto command line) = .ok (self',errors))
    (hkept : self'.status = .ok) : self'.command = 'P'.toUInt8 := by
  rw [process_eq self hself command hline.length hline.nonzero] at h
  obtain ⟨word,_,h⟩ := bind_eq_ok h
  split at h
  · exact processPut_command h
  · have hne : line ≠ [] := by
      obtain ⟨body,-,rfl⟩ := hline.ends
      simp
    obtain ⟨self'',errors',hw,hcases⟩ := processWord_cases self hne
    rw [hw] at h
    cases h
    rcases hcases with ⟨hacc,-⟩ | hinvalid
    · cases hacc <;> cases hkept
    · rw [hinvalid] at hkept
      cases hkept

theorem receive_same (s : Server) {a b : Command} (h : SameCommand a b) :
    s.receive a = s.receive b := by
  obtain ⟨hc,hargs⟩ := h
  by_cases hP : b.command = 'P'.toUInt8
  · obtain ⟨hr,hcol,hv⟩ := hargs hP
    rw [Server.receive, Server.receive, if_pos (hc.trans hP), if_pos hP, hc, hr, hcol, hv]
  · rw [Server.receive, Server.receive, if_neg (fun h => hP (hc.symm.trans h)), if_neg hP, hc]

theorem accepted_valid {self self' : Client} {line : Text} (h : Accepted self line self') :
    self'.status = .commandValid := by
  cases h <;> rfl

theorem accepted_move {self self' : Client} {line : Text} (h : Accepted self line self') :
    self'.command = 'E'.toUInt8 ∨ self'.command ≠ 'E'.toUInt8 ∧
      ∃ m : Move, SameCommand (Client.toCommand self') m.toCommand := by
  have harg : ∀ {a b : Command}, a.command = b.command → b.command ≠ 'P'.toUInt8 →
      SameCommand a b := fun he hb => ⟨he,fun hP => absurd hP hb⟩
  cases h with
  | put _ _ _ _ v r c =>
    exact .inr ⟨show 'P'.toUInt8 ≠ 'E'.toUInt8 by decide,.put r c v,rfl,fun _ => ⟨rfl,rfl,rfl⟩⟩
  | verify => exact .inr ⟨show 'V'.toUInt8 ≠ 'E'.toUInt8 by decide,.verify,harg rfl (by decide)⟩
  | get => exact .inr ⟨show 'G'.toUInt8 ≠ 'E'.toUInt8 by decide,.get,harg rfl (by decide)⟩
  | reset => exact .inr ⟨show 'R'.toUInt8 ≠ 'E'.toUInt8 by decide,.reset,harg rfl (by decide)⟩
  | exit => exact .inl rfl
  | eof _ => exact .inl rfl

inductive LineOutcome (self' : Client) : Prop
  | leave (hvalid : self'.status = .commandValid) (hexit : self'.command = 'E'.toUInt8)
  | valid (hvalid : self'.status = .commandValid) (hexit : self'.command ≠ 'E'.toUInt8) (m : Move)
      (hm : SameCommand (Client.toCommand self') m.toCommand)
  | again (hinvalid : self'.status = .commandInvalid)
  | wrongIndex (hkept : self'.status = .ok) (hput : self'.command = 'P'.toUInt8)

theorem line_outcome (self : Client) {line : Text} (hline : Typeable line) :
    ∃ self' errors, (∀ command, clientCommandProcess { self with status := .ok }
        (readInto command line) = .ok (self',errors)) ∧ LineOutcome self' := by
  have hself : ({ self with status := .ok } : Client).status = .ok := rfl
  obtain ⟨self',errors,hp,hcases⟩ := process_cases { self with status := .ok } hself
    (Vector.replicate maxCommandLength 1) hline.ends hline.length hline.nonzero
  refine ⟨self',errors,?_,?_⟩
  · intro command
    rw [← hp, process_eq _ hself command hline.length hline.nonzero,
      process_eq _ hself _ hline.length hline.nonzero]
  · rcases hcases with hacc | hinvalid | hkept
    · rcases accepted_move hacc with hexit | ⟨hexit,m,hm⟩
      · exact .leave (accepted_valid hacc) hexit
      · exact .valid (accepted_valid hacc) hexit m hm
    · exact .again hinvalid
    · exact .wrongIndex hkept (kept_command hself hline hp hkept)

theorem move_sendable (b : Board) (m : Move) (h : InPlay b) (ht : m = .reset → Terminated b) :
    Sendable (serveMove b m).2 := by
  have hboard : ∀ b : Board, DigitCells b.board → Sendable (rendering b) := by
    intro b hd
    have hlen := rendering_length b
    exact ⟨by omega,by omega,fun h0 => rendering_nonzero b hd 0 h0 rfl⟩
  have hcells := (serveMove_inPlay b m h ht).cells
  cases m with
  | put r c v =>
    by_cases h0 : b.boardOriginal[cellIndex r c] = 48
    · simp only [serveMove, if_pos h0] at hcells ⊢
      exact hboard _ hcells
    · simp only [serveMove, if_neg h0]
      exact ⟨by decide,by decide,by decide⟩
  | verify =>
    simp only [serveMove]
    split
    · exact ⟨by decide,by decide,by decide⟩
    · exact ⟨by decide,by decide,by decide⟩
  | reset =>
    simp only [serveMove] at hcells ⊢
    exact hboard _ hcells
  | get =>
    simp only [serveMove] at hcells ⊢
    exact hboard _ hcells

structure Playable (b : Board) : Prop where
  inPlay : InPlay b
  terminated : Terminated b

theorem playable_serveMove {b : Board} (h : Playable b) (m : Move) :
    Playable (serveMove b m).1 := by
  refine ⟨serveMove_inPlay b m h.inPlay fun _ => h.terminated,?_⟩
  rw [Terminated, serveMove_original]
  exact h.terminated

/-- A command that stands for a move is answered with one string, which fits
the buffer of the client. -/
theorem process_command (s : Server) {b : Board} (h : Playable b) {c : Command} {m : Move}
    (hc : SameCommand c m.toCommand) :
    ∃ b' t, serverProcessCommand (s.receive c) b = .ok ⟨s.receive c,b',[t]⟩ ∧ Playable b' ∧
      Sendable t := by
  have ht : m = .reset → Terminated b := fun _ => h.terminated
  refine ⟨_,_,?_,playable_serveMove h m,move_sendable b m h.inPlay ht⟩
  rw [receive_same s hc]
  exact process_move s b m h.inPlay ht

/-- After the lines `done`: what they and any further lines stand for, and what
the server makes of it. -/
structure Follows (client0 : Client) (server0 : Server) (b0 : Board) (done : List Text)
    (client : Client) (server : Server) (b : Board) (log : List Step) (printed : List Text)
    (cs : List Client) (steps : List Step) : Prop where
  typed : ∀ lines, typed client0 (done++lines) = cs++typed client lines
  run : ∀ commands, serverRun server0 b0 (cs.map Client.toCommand++commands) =
    serverRun server b commands >>= fun rest => .ok (steps++rest)
  processed : List.Forall₂ SameStep log steps
  shown : List.Forall₂ Shown steps printed
  board : finalBoard b0 steps = b

theorem typed_line {self self' : Client} {line : Text} {errors : List Text}
    (h : ∀ command, clientCommandProcess { self with status := .ok } (readInto command line) =
      .ok (self',errors)) (lines : List Text) :
    typed self (line::lines) =
      if self'.status = .commandValid then
        if self'.command = 'E'.toUInt8 then [] else self'::typed self' lines
      else typed self' lines := by
  rw [typed, h]

theorem typed_status (self : Client) (status : ClientStatus) (lines : List Text) :
    typed { self with status } lines = typed self lines := by
  cases lines with
  | nil => rfl
  | cons line lines => simp only [typed]

theorem follows_start (client : Client) (server : Server) (b : Board) :
    Follows client server b [] client server b [] [] [] [] where
  typed lines := rfl
  run commands := by
    rw [List.map_nil, List.nil_append]
    rcases serverRun server b commands with f | rest <;> rfl
  processed := .nil
  shown := .nil
  board := rfl

section Follows
variable {client0 client client' : Client} {server0 server : Server} {b0 b : Board}
  {done : List Text} {log : List Step} {printed : List Text} {cs : List Client}
  {steps : List Step} {line : Text} {errors : List Text}
  (h : Follows client0 server0 b0 done client server b log printed cs steps)
include h

theorem follows_recorded :
    Recorded server0 b0 (cs.map Client.toCommand) log printed steps where
  run := by simpa [serverRun] using h.run []
  processed := h.processed
  shown := h.shown

theorem follows_typed : typed client0 done = cs := by
  simpa [SudokuSession.typed] using h.typed []

theorem follows_status (status : ClientStatus) :
    Follows client0 server0 b0 done { client with status } server b log printed cs steps where
  typed lines := (h.typed lines).trans (congrArg _ (typed_status client status lines).symm)
  run := h.run
  processed := h.processed
  shown := h.shown
  board := h.board

section Line
variable (hp : ∀ command, clientCommandProcess { client with status := .ok }
  (readInto command line) = .ok (client',errors))
include hp

theorem follows_exit (hvalid : client'.status = .commandValid)
    (hexit : client'.command = 'E'.toUInt8) (lines : List Text) :
    typed client0 (done++line::lines) = cs := by
  rw [h.typed, typed_line hp, if_pos hvalid, if_pos hexit, List.append_nil]

theorem follows_skip (hvalid : client'.status ≠ .commandValid) :
    Follows client0 server0 b0 (done++[line]) client' server b log printed cs steps where
  typed lines := by
    rw [List.append_assoc, List.singleton_append, h.typed, typed_line hp, if_neg hvalid]
  run := h.run
  processed := h.processed
  shown := h.shown
  board := h.board

theorem follows_command (hvalid : client'.status = .commandValid)
    (hexit : client'.command ≠ 'E'.toUInt8) {server' : Server} {b' : Board} {t : Text}
    (hserve : serverProcessCommand (server.receive (Client.toCommand client')) b =
      .ok ⟨server',b',[t]⟩) :
    Follows client0 server0 b0 (done++[line]) client' server' b'
      (log++[⟨Server.toCommand (server.receive (Client.toCommand client')),b,b',[t]⟩])
      (printed++[t.dropLast++[newline]]) (cs++[client'])
      (steps++[⟨Client.toCommand client',b,b',[t]⟩]) where
  typed lines := by
    rw [List.append_assoc, List.singleton_append, h.typed, typed_line hp, if_pos hvalid,
      if_neg hexit, List.append_assoc, List.singleton_append]
  run commands := by
    rw [List.map_append, List.append_assoc, h.run, List.map_singleton, List.singleton_append,
      serverRun, hserve, ok_bind]
    rcases serverRun server' b' commands with f | rest
    · rfl
    · simp
  processed := List.rel_append h.processed
    (.cons ⟨same_receive server (Client.toCommand client'),rfl,rfl,rfl⟩ .nil)
  shown := List.rel_append h.shown (.cons ⟨t,rfl,rfl⟩ .nil)
  board := by simp [finalBoard]

end Line
end Follows

abbrev Session : Type := System stdio record Playing (Serving × SudokuStatus) Stdio (List Step)

def AtRead (p : ClientProgram Playing) : Prop := ∃ next, p = .call (.other .fgetc) next

theorem atRead_local {p : ClientProgram Playing} (h : AtRead p) : Local p := by
  obtain ⟨next,rfl⟩ := h
  exact ⟨.fgetc,next,rfl⟩

theorem call_not_atRead {op : StdioOp} (h : op ≠ .fgetc)
    (next : StdioRes op → ClientProgram Playing) : ¬ AtRead (.call (.other op) next) := by
  rintro ⟨next',he⟩
  cases he
  exact h rfl

theorem inputLine_line {line : Text} (h : InputLine line) {k : ℕ} (hk : line.length ≤ k)
    (more : Text) : inputLine k (line++more) = line := by
  obtain ⟨body,hbody,rfl⟩ := h
  induction body generalizing k with
  | nil =>
    obtain ⟨k,rfl⟩ := Nat.exists_eq_succ_of_ne_zero (Nat.ne_of_gt hk)
    simp [inputLine]
  | cons c cs ih =>
    obtain ⟨hc,hcs⟩ := not_or.mp (List.mem_cons.not.mp hbody)
    obtain ⟨k,rfl⟩ := Nat.exists_eq_succ_of_ne_zero (Nat.ne_of_gt (Nat.zero_lt_of_lt hk))
    have hlen : (cs++[newline]).length ≤ k := by simpa using hk
    rw [List.cons_append, List.cons_append, inputLine, if_neg (Ne.symm hc), ih hcs hlen]

theorem fgets_line {line : Text} (h : Typeable line) (more : Text) (printed errors : List Text) :
    ∃ hlt, terminal (.fgets readBuffMax) ⟨line++more,printed,errors⟩ =
      (.ok (some ⟨line,hlt⟩),⟨more,printed,errors⟩) := by
  have hne : line++more ≠ [] := by
    obtain ⟨body,-,rfl⟩ := h.ends
    simp
  have hline : inputLine (readBuffMax-1) (line++more) = line :=
    inputLine_line h.ends (h.length.trans (by decide)) more
  refine ⟨Nat.lt_of_le_of_lt h.length (by decide),?_⟩
  simp only [terminal, fgetsAnswer, dif_neg (not_or.mpr ⟨hne,show readBuffMax ≠ 0 by decide⟩),
    hline, List.drop_left]

section Rules
variable {G F : Session → Prop}
  (hG : ∀ s : Session, ¬ AtRead s.left.program → G s)
  {q : Program (net record) Halt (Serving × SudokuStatus)} (hq : Waiting q) {log : List Step}
include hG hq

theorem ends_call {op : StdioOp} {next : StdioRes op → ClientProgram Playing} {r : StdioRes op}
    {s s' : Stdio} (hop : op ≠ .fgetc) (hterm : terminal op s = (.ok r,s'))
    (h : Ends (HalfDuplex.Step terminal logging) G F (quiet (next r) s' q log)) :
    Ends (HalfDuplex.Step terminal logging) G F (quiet (.call (.other op) next) s q log) :=
  ends_local (hG _ (call_not_atRead hop next)) hterm hq h

theorem ends_readLine {client : Client} {command : Vector UInt8 maxCommandLength}
    {f : Client × Vector UInt8 maxCommandLength → ClientProgram Playing} {line more : Text}
    (hline : Typeable line) {printed errors : List Text}
    (hquiet : G (quiet (clientReadCommand client command >>= f) ⟨line++more,printed,errors⟩ q log))
    (h : Ends (HalfDuplex.Step terminal logging) G F
      (quiet (f (client,readInto command line)) ⟨more,printed,errors⟩ q log)) :
    Ends (HalfDuplex.Step terminal logging) G F
      (quiet (clientReadCommand client command >>= f) ⟨line++more,printed,errors⟩ q log) := by
  obtain ⟨c,cs,hc⟩ : ∃ c cs, line = c::cs := by
    obtain ⟨body,-,rfl⟩ := hline.ends
    exact List.exists_cons_of_ne_nil (by simp)
  have hchar : terminal .fgetc ⟨line++more,printed,errors⟩ =
      (.ok (some c),⟨cs++more,printed,errors⟩) := by
    rw [hc]
    rfl
  have hback : terminal (.ungetc c) ⟨cs++more,printed,errors⟩ =
      (.ok (),⟨line++more,printed,errors⟩) := by
    rw [hc]
    rfl
  obtain ⟨hlt,hget⟩ := fgets_line hline more printed errors
  have hfit : 0+(line++[0]).length ≤ maxCommandLength := by
    have := hline.length
    simp only [List.length_append, List.length_singleton, maxCommandLength]
    omega
  apply ends_local hquiet hchar hq
  apply ends_call hG hq (by simp) hback
  apply ends_call hG hq (by simp) hget
  have hstore : storeAll command 0 (line++[0]) = .ok (readInto command line) :=
    storeAll_fits command 0 (line++[0]) hfit
  simp only [hstore]
  exact h

omit hG in
theorem ends_readEnd {client : Client} {command : Vector UInt8 maxCommandLength}
    {f : Client × Vector UInt8 maxCommandLength → ClientProgram Playing}
    {printed errors : List Text}
    (hquiet : G (quiet (clientReadCommand client command >>= f) ⟨[],printed,errors⟩ q log))
    (h : Ends (HalfDuplex.Step terminal logging) G F
      (quiet (f ({ client with status := .eofReached },command)) ⟨[],printed,errors⟩ q log)) :
    Ends (HalfDuplex.Step terminal logging) G F
      (quiet (clientReadCommand client command >>= f) ⟨[],printed,errors⟩ q log) := by
  have hchar : terminal .fgetc ⟨[],printed,errors⟩ = (.ok none,⟨[],printed,errors⟩) := rfl
  apply ends_local hquiet hchar hq
  exact h

theorem ends_printErrors {es : List Text} {f : Unit → ClientProgram Playing} {input : Text}
    {printed errors : List Text}
    (h : Ends (HalfDuplex.Step terminal logging) G F
      (quiet (f ()) ⟨input,printed,errors++es⟩ q log)) :
    Ends (HalfDuplex.Step terminal logging) G F
      (quiet (printErrors es >>= f) ⟨input,printed,errors⟩ q log) := by
  induction es generalizing errors with
  | nil =>
    rw [List.append_nil] at h
    exact h
  | cons e es ih =>
    have hprint : terminal (.fprintf e) ⟨input,printed,errors⟩ =
        (.ok (),⟨input,printed,errors++[e]⟩) := rfl
    have hrest : Ends (HalfDuplex.Step terminal logging) G F
        (quiet (printErrors es >>= f) ⟨input,printed,errors++[e]⟩ q log) := by
      apply ih
      rw [List.append_assoc]
      exact h
    exact ends_call hG hq (by simp) hprint hrest

omit hq in
theorem ends_exchange (messageLen : Vector UInt8 headerLen) (game : SudokuStatus) {n m j : ℕ}
    {s : Playing} (hexit : s.client.command ≠ 'E'.toUInt8)
    (hvalid : s.client.status = .commandValid) {server server' : Server} {b b' : Board} {t : Text}
    (hserve : serverProcessCommand (server.receive (Client.toCommand s.client)) b =
      .ok ⟨server',b',[t]⟩) (ht : Sendable t) {input : Text} {printed errors : List Text}
    (h : ∀ received, Ends (HalfDuplex.Step terminal logging) G F
      (quiet (Program.iterate .running (playTurn n) m { s with received })
        ⟨input,printed++[t.dropLast++[newline]],errors⟩ (serverLoop messageLen game j server' b')
        (log++[⟨Server.toCommand (server.receive (Client.toCommand s.client)),b,b',[t]⟩]))) :
    Ends (HalfDuplex.Step terminal logging) G F
      (quiet (afterRead n m s) ⟨input,printed,errors⟩ (serverLoop messageLen game (j+1) server b)
        log) := by
  have hquiet : ∀ s : Session, ¬ Local s.left.program → ¬ Local s.right.program → G s :=
    fun s hl _ => hG s fun hr => hl (atRead_local hr)
  obtain ⟨hpos,hlen,h0⟩ := ht
  obtain ⟨received,htakes⟩ := receiveString_takes s.received (List.length_pos_iff.mp hpos)
    (by simp only [receivedBoard]; omega) h0
  have hanswer : Sends (sendStrings messageLen [t] >>= fun _ =>
      serverLoop messageLen game j server' b') (frame t) (serverLoop messageLen game j server' b') := by
    apply sends_last (a := ()) _ rfl
    exact sends_last (sendString_sends messageLen (by omega)) rfl
  have hwait := serverLoop_waiting messageLen game j server' b'
  have hawait := waiting_bind (receiveString_waiting s.received) fun r =>
    Program.iterate .running (playTurn n) m { s with received := r.2 }
  apply ends_message hquiet (afterRead_sends n m hexit hvalid)
    (serverLoop_takes messageLen game j hserve) hawait
  apply ends_local_right (r := ()) (hG _ fun hr => waiting_not_local hawait (atRead_local hr)) rfl
    hawait
  apply ends_message_right hquiet hanswer (takes_bind htakes _) hwait
  exact ends_call hG hwait (by simp) rfl (h received)

end Rules

section Run
variable (messageLen : Vector UInt8 headerLen) (client0 : Client) (server0 : Server) (b0 : Board)
  (lines : List Text)

def Good (s : Session) : Prop :=
  AtRead s.left.program → s.toLeft = [] ∧ s.toRight = [] ∧
    ∃ k ≤ lines.length, s.left.state.input = (lines.drop k).flatten ∧
      ∃ steps, Recorded server0 b0 ((typed client0 (lines.take k)).map Client.toCommand)
        s.right.state s.left.state.printed steps

structure Final (s : Session) : Prop where
  toLeft : s.toLeft = []
  toRight : s.toRight = []
  client : ∃ playing, s.left.program = .ret playing ∧ playing.client.status = .endgame ∧
    playing.game = .endgame
  server : ∃ serving steps, s.right.program = .ret (serving,.endgame) ∧
    Recorded server0 b0 ((typed client0 lines).map Client.toCommand) s.right.state
      s.left.state.printed steps ∧ serving.board = finalBoard b0 steps

theorem good_not_reading {s : Session} (h : ¬ AtRead s.left.program) :
    Good client0 server0 b0 lines s := fun hr => absurd hr h

theorem good_not_local {s : Session} (h : ¬ Local s.left.program) (_ : ¬ Local s.right.program) :
    Good client0 server0 b0 lines s := fun hr => absurd (atRead_local hr) h

variable {client0 server0 b0 lines}

section Line
variable {done rest : List Text} {client : Client} {server : Server} {b : Board} {log : List Step}
  {cs : List Client} {steps : List Step} {printed errors : List Text}
  {p : ClientProgram Playing} {q : Program (net record) Halt (Serving × SudokuStatus)}
  (hlines : lines = done++rest)
  (h : Follows client0 server0 b0 done client server b log printed cs steps)
include hlines h

theorem good_reading : Good client0 server0 b0 lines
    (quiet p ⟨rest.flatten,printed,errors⟩ q log) := by
  intro _
  refine ⟨rfl,rfl,done.length,by rw [hlines]; simp,?_,steps,?_⟩
  · rw [hlines, List.drop_left]
    rfl
  · rw [hlines, List.take_left, follows_typed h]
    exact follows_recorded h

omit hlines in
theorem final_session (htyped : typed client0 lines = cs) {playing : Playing}
    (hclient : playing.client.status = .endgame) (hgame : playing.game = .endgame)
    {input : Text} {status : SocketStatus} :
    Final client0 server0 b0 lines ⟨⟨.ret playing,⟨input,printed,errors⟩,true⟩,
      ⟨.ret (⟨status,server,b⟩,.endgame),log,true⟩,[],[]⟩ where
  toLeft := rfl
  toRight := rfl
  client := ⟨playing,rfl,hclient,hgame⟩
  server := ⟨⟨status,server,b⟩,steps,rfl,htyped ▸ follows_recorded h,h.board.symm⟩

end Line

theorem ends_leaving {done : List Text} {client : Client} {server : Server} {b : Board}
    {log : List Step} {cs : List Client} {steps : List Step} {input : Text}
    {printed errors : List Text}
    (h : Follows client0 server0 b0 done client server b log printed cs steps)
    (htyped : typed client0 lines = cs) {s : Playing}
    (hleave : s.client.command = 'E'.toUInt8 ∨ s.client.status = .eofReached) (n m j : ℕ) :
    Ends (HalfDuplex.Step terminal logging) (Good client0 server0 b0 lines)
      (Final client0 server0 b0 lines)
      (quiet (afterRead n (m+1) s) ⟨input,printed,errors⟩
        (serverLoop messageLen .argsOk (j+1) server b) log) := by
  rw [afterRead_leave n (m+1) hleave]
  exact ends_close (fun s => good_not_local client0 server0 b0 lines) (play_closed n m rfl)
    (serverLoop_hangsUp messageLen .argsOk j server b) (final_session h htyped rfl rfl)

/-- The step and run lemma in one: from a quiet connection before a line the
session reaches the next one or its end. By induction on the lines. -/
theorem ends_reading {done rest : List Text} (hlines : lines = done++rest)
    (hrest : ∀ line ∈ rest, Typeable line) {s : Playing} (hs : s.client.status = .commandInvalid)
    {server : Server} {b : Board} (hb : Playable b) {log : List Step} {cs : List Client}
    {steps : List Step} {printed errors : List Text}
    (h : Follows client0 server0 b0 done s.client server b log printed cs steps)
    {n m k j : ℕ} (hn : rest.length+1 < n) (hm : rest.length < m) (hk : rest.length+1 < k)
    (hj : rest.length < j) :
    Ends (HalfDuplex.Step terminal logging) (Good client0 server0 b0 lines)
      (Final client0 server0 b0 lines)
      (quiet (reading n m k s) ⟨rest.flatten,printed,errors⟩
        (serverLoop messageLen .argsOk j server b) log) := by
  have hG : ∀ s : Session, ¬ AtRead s.left.program → Good client0 server0 b0 lines s :=
    fun s => good_not_reading client0 server0 b0 lines
  induction rest generalizing done s server b log cs steps printed errors m k j with
  | nil =>
    obtain ⟨m,rfl⟩ := Nat.exists_eq_succ_of_ne_zero (Nat.ne_of_gt hm)
    obtain ⟨j,rfl⟩ := Nat.exists_eq_succ_of_ne_zero (Nat.ne_of_gt hj)
    obtain ⟨k,rfl⟩ := Nat.exists_eq_add_of_lt hk
    rw [List.length_nil, Nat.zero_add, Nat.add_comm 1 k, reading_turn n (m+1) (k+1) hs]
    apply ends_readEnd (serverLoop_waiting messageLen .argsOk (j+1) server b)
      (good_reading hlines h)
    have hend : clientCommandProcess { s.client with status := .eofReached } s.command =
        .ok ({ s.client with status := .eofReached },[]) := if_pos rfl
    simp only [hend, checked_ok, Program.ret_bind, printErrors]
    have htyped : typed client0 lines = cs := by
      rw [hlines, List.append_nil]
      exact follows_typed h
    rw [reading_done n (m+1) k (by simp)]
    exact ends_leaving messageLen h htyped (.inr rfl) n m j
  | cons line rest ih =>
    obtain ⟨hline,hrest⟩ := List.forall_mem_cons.mp hrest
    simp only [List.length_cons] at hn hm hk hj
    obtain ⟨m,rfl⟩ := Nat.exists_eq_succ_of_ne_zero (Nat.ne_of_gt (Nat.zero_lt_of_lt hm))
    obtain ⟨j,rfl⟩ := Nat.exists_eq_succ_of_ne_zero (Nat.ne_of_gt (Nat.zero_lt_of_lt hj))
    obtain ⟨k,rfl⟩ : ∃ k', k = k'+2 := ⟨k-2,by omega⟩
    obtain ⟨client',errors',hp,houtcome⟩ := line_outcome s.client hline
    have hwait := serverLoop_waiting messageLen .argsOk (j+1) server b
    have hnext : lines = (done++[line])++rest := by simp [hlines]
    rw [reading_turn n (m+1) (k+1) hs, List.flatten_cons]
    apply ends_readLine hG hwait hline (good_reading hlines h)
    simp only [hp, checked_ok, Program.ret_bind]
    apply ends_printErrors hG hwait
    cases houtcome with
    | leave hvalid hexit =>
      have htyped : typed client0 lines = cs := by
        rw [hlines]
        exact follows_exit h hp hvalid hexit rest
      rw [reading_done n (m+1) k (by simp [hvalid])]
      exact ends_leaving messageLen h htyped (.inl hexit) n m j
    | valid hvalid hexit move hmove =>
      obtain ⟨b',t,hserve,hb',ht⟩ := process_command server hb hmove
      rw [reading_done n (m+1) k (by simp [hvalid])]
      apply ends_exchange hG messageLen .argsOk hexit hvalid hserve ht
      intro received
      rw [play_turn n m (by simp [hvalid])]
      have hfollows := follows_status (follows_command h hp hvalid hexit hserve) .commandInvalid
      exact ih hnext hrest rfl hb' hfollows (by omega) (by omega) (by omega) (by omega)
    | again hinvalid =>
      have hfollows := follows_skip h hp (by simp [hinvalid])
      exact ih hnext hrest hinvalid hb hfollows (by omega) (by omega) (by omega) (by omega)
    | wrongIndex hkept hput =>
      rw [reading_done n (m+1) k (by simp [hkept]),
        afterRead_again n m (by rw [hput]; decide) hkept]
      have hfollows := follows_status (follows_skip h hp (by simp [hkept])) .commandInvalid
      exact ih hnext hrest rfl hb hfollows (by omega) (by omega) (by omega) (by omega)

end Run

def started (messageLen : Vector UInt8 headerLen) (n m : ℕ) (client : Client) (server : Server)
    (status : BoardStatus) (file : Text) (lines : List Text) : Session :=
  quiet (sudokuPlay n client .argsOk) ⟨lines.flatten,[],[]⟩
    (sudokuRunServer messageLen m server (blankBoard status) (some file) .argsOk) []

/-- A session ends in every interleaving. Before each line nothing is under
way, and the server has processed and answered the commands of the lines
before it and no others. At the end both programs have returned, the server
with the board as these commands left it. -/
theorem session_follows_lines (file : Text) (hlen : file.length ≤ 199) (hnul : (0:UInt8) ∉ file)
    (b0 : Board) (hload : Loaded file b0) (lines : List Text)
    (hlines : ∀ line ∈ lines, Typeable line) (messageLen : Vector UInt8 headerLen)
    (client : Client) (server : Server) (status : BoardStatus) (n m : ℕ)
    (hn : lines.length+1 < n) (hm : lines.length < m) :
    (¬ ∃ run : ℕ → Session, run 0 = started messageLen n m client server status file lines ∧
      ∀ k, HalfDuplex.Step terminal logging (run k) (run (k+1))) ∧
    (∃ s, Relation.ReflTransGen (HalfDuplex.Step terminal logging)
        (started messageLen n m client server status file lines) s ∧
      Final (Client.enter client) server b0 lines s) ∧
    ∀ s, Relation.ReflTransGen (HalfDuplex.Step terminal logging)
        (started messageLen n m client server status file lines) s →
      Good (Client.enter client) server b0 lines s ∧
        ((∀ t, ¬ HalfDuplex.Step terminal logging s t) →
          Final (Client.enter client) server b0 lines s) := by
  obtain ⟨n,rfl⟩ := Nat.exists_eq_succ_of_ne_zero (Nat.ne_of_gt (Nat.zero_lt_of_lt hn))
  have hplayable : Playable b0 :=
    ⟨hload.inPlay,(loaded_resettable hload (show file.length < 200 by omega) hnul).terminated⟩
  have hends : Ends (HalfDuplex.Step terminal logging) (Good (Client.enter client) server b0 lines)
      (Final (Client.enter client) server b0 lines)
      (started messageLen (n+1) m client server status file lines) := by
    have hread := (serverBoardRead_iff status file b0).mpr hload.eq
    rw [started, sudokuPlay, play_turn (n+1) n (by simp [Client.enter]), sudokuRunServer, hread,
      checked_ok, Program.ret_bind]
    have hfollows := follows_status (follows_start (Client.enter client) server b0) .commandInvalid
    exact ends_reading messageLen (List.nil_append lines).symm hlines rfl hplayable hfollows hn
      (by omega) hn hm
  refine ⟨ends_finite hends,ends_final hends,?_⟩
  intro s hs
  have hreached := ends_reachable hends hs
  exact ⟨ends_good hreached,ends_rest hreached⟩

theorem session_follows_lines_put :
    ∃ (s : Session) (steps : List Step),
      Relation.ReflTransGen (HalfDuplex.Step terminal logging)
        (started (Vector.replicate headerLen 0) 5 4 ⟨0,0,0,0,.ok⟩ ⟨0,0,0,0,.ok⟩ .ok emptyFile
          [text "put 5 in 1,2\n",text "verify\n",text "exit\n"]) s ∧
      serverRun ⟨0,0,0,0,.ok⟩ emptyBoard [⟨'P'.toUInt8,1,2,5⟩,⟨'V'.toUInt8,1,2,5⟩] = .ok steps ∧
      List.Forall₂ SameStep s.right.state steps := by
  have hlines : ∀ line ∈ [text "put 5 in 1,2\n",text "verify\n",text "exit\n"],
      Typeable line := by
    simp only [List.forall_mem_cons]
    exact ⟨⟨⟨text "put 5 in 1,2",by decide,by decide⟩,by decide,by decide⟩,
      ⟨⟨text "verify",by decide,by decide⟩,by decide,by decide⟩,
      ⟨⟨text "exit",by decide,by decide⟩,by decide,by decide⟩,nofun⟩
  have htyped : (typed (Client.enter ⟨0,0,0,0,.ok⟩)
      [text "put 5 in 1,2\n",text "verify\n",text "exit\n"]).map Client.toCommand =
      [⟨'P'.toUInt8,1,2,5⟩,⟨'V'.toUInt8,1,2,5⟩] := by decide +kernel
  obtain ⟨-,⟨s,hs,hfinal⟩,-⟩ := session_follows_lines emptyFile (by decide +kernel)
    (by decide +kernel) emptyBoard emptyBoard_loaded _ hlines (Vector.replicate headerLen 0)
    ⟨0,0,0,0,.ok⟩ ⟨0,0,0,0,.ok⟩ .ok 5 4 (by decide) (by decide)
  obtain ⟨serving,steps,-,hrecorded,-⟩ := hfinal.server
  rw [htyped] at hrecorded
  exact ⟨s,steps,hs,hrecorded.run,hrecorded.processed⟩

end Workshop.SudokuSession
