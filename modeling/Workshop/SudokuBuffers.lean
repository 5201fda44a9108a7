import Workshop.SudokuReception
import Workshop.SudokuTokens

/-!
# The buffers of the sudoku client

`fgets` is told a size of 50 for a buffer of 20 bytes, and the length of an
answer is what `atoi` makes of three received bytes. The client stays inside
its buffers as long as the lines it reads and the lengths it is told fit, and
leaves them with the first one that does not.
-/

set_option autoImplicit false

namespace Workshop.SudokuBuffers
open Workshop.CMemory Workshop.InteractiveProgram Workshop.ByteChannel
open Workshop.SudokuServer Workshop.SudokuProtocol Workshop.SudokuStrings
open Workshop.SudokuClient Workshop.SudokuPlay Workshop.SudokuTokens Workshop.SudokuReception

/-- The line that comes next leaves room for its terminator. -/
def LineFits (input : Text) : Prop := (inputLine (readBuffMax-1) input).length < maxCommandLength

/-- The length that comes next lies within the buffer of the answers. -/
def AnswerFits (incoming : Text) : Prop :=
  0 ≤ announced incoming ∧ announced incoming ≤ receivedBoard

instance (input : Text) : Decidable (LineFits input) := inferInstanceAs (Decidable (_ < _))

instance (incoming : Text) : Decidable (AnswerFits incoming) :=
  inferInstanceAs (Decidable (_ ∧ _))

deriving instance DecidableEq for Playing

section Lines
variable (d : Delivery) (self : Client) (command : Vector UInt8 maxCommandLength) (w : Wire)
  {s : Stdio}

theorem run_readCommand_end (h : s.input = []) :
    run (wired d terminal) (clientReadCommand self command) (w,s) =
      (.ok ({ self with status := .eofReached },command),w,s) := by
  obtain ⟨input,printed,errors⟩ := s
  obtain rfl : input = [] := h
  rfl

theorem run_readCommand_line (h : s.input ≠ []) :
    ∃ s', run (wired d terminal) (clientReadCommand self command) (w,s) =
      run (wired d terminal)
        (checked (storeAll command 0 (inputLine (readBuffMax-1) s.input++[0])) >>= fun command =>
          .ret (self,command)) (w,s') := by
  obtain ⟨input,printed,errors⟩ := s
  obtain ⟨c,cs,rfl⟩ := List.exists_cons_of_ne_nil h
  exact ⟨_,rfl⟩

theorem run_readCommand_fits (h : s.input ≠ []) (hfits : LineFits s.input) :
    ∃ s', run (wired d terminal) (clientReadCommand self command) (w,s) =
      (.ok (self,readInto command (inputLine (readBuffMax-1) s.input)),w,s') := by
  obtain ⟨s',hs'⟩ := run_readCommand_line d self command w h
  have hroom : 0+(inputLine (readBuffMax-1) s.input++[0]).length ≤ maxCommandLength := by
    rw [LineFits] at hfits
    rw [List.length_append, List.length_singleton]
    omega
  have hstore := storeAll_fits command 0 _ hroom
  refine ⟨s',?_⟩
  rw [hs', ← Nat.cast_zero, hstore]
  rfl

theorem run_readCommand_overrun (hover : ¬ LineFits s.input) :
    (run (wired d terminal) (clientReadCommand self command) (w,s)).1 =
      .error (.fault .outOfBounds) := by
  have hne : s.input ≠ [] := by
    intro hnil
    rw [hnil] at hover
    exact hover (by decide)
  obtain ⟨s',hs'⟩ := run_readCommand_line d self command w hne
  have hroom : maxCommandLength < 0+(inputLine (readBuffMax-1) s.input++[0]).length := by
    rw [LineFits] at hover
    rw [List.length_append, List.length_singleton]
    omega
  have hstore := storeAll_overrun command 0 _ (Nat.zero_le _) hroom
  rw [hs', ← Nat.cast_zero, hstore]
  rfl

end Lines

theorem bind_inside {α β : Type} {x : Checked α} {f : α → Checked β}
    (hx : x ≠ .error .outOfBounds) (hf : ∀ a, f a ≠ .error .outOfBounds) :
    x >>= f ≠ .error .outOfBounds := by
  cases x with
  | error e =>
    rw [error_bind]
    intro he
    exact hx (congrArg _ (Except.error.inj he))
  | ok a => exact hf a

theorem pointed_inside (t : Option Text) : pointed t ≠ .error .outOfBounds := by
  cases t with
  | none => nofun
  | some t => exact ok_ne_error t _

theorem processPut_inside (self : Client) (s : Text) :
    processPut self s ≠ .error .outOfBounds := by
  rw [processPut]
  apply bind_inside (pointed_inside _)
  intro value
  split
  · apply bind_inside (pointed_inside _)
    intro word
    split
    · apply bind_inside (pointed_inside _)
      intro index
      split
      · exact ok_ne_error _ _
      · exact ok_ne_error _ _
    · exact ok_ne_error _ _
  · exact ok_ne_error _ _

theorem process_inside (self : Client) (command : Vector UInt8 maxCommandLength) {line : Text}
    (hlen : line.length < maxCommandLength) :
    clientCommandProcess self (readInto command line) ≠ .error .outOfBounds := by
  have h0 : (0:UInt8) ∉ line.takeWhile (· ≠ 0) := by
    intro hmem
    have hne := List.mem_takeWhile_imp hmem
    exact Bool.false_ne_true hne
  rw [process_string self (readInto_string command hlen), processString]
  split
  · exact ok_ne_error _ _
  · rw [snprintf_cut _ h0, ok_bind]
    apply bind_inside (pointed_inside _)
    intro word
    split
    · exact processPut_inside _ _
    · exact ok_ne_error _ _

section Turns
variable (d : Delivery) (w : Wire) (s : Stdio)

theorem run_printErrors (es : List Text) :
    ∃ s', run (wired d terminal) (printErrors es) (w,s) = (.ok (),w,s') := by
  induction es generalizing s with
  | nil => exact ⟨s,rfl⟩
  | cons e es ih => exact ih { s with errors := s.errors++[e] }

theorem run_processed (p : Playing) (self : Client) (command : Vector UInt8 maxCommandLength)
    (h : clientCommandProcess self command ≠ .error .outOfBounds) :
    (run (wired d terminal) (checked (clientCommandProcess self command) >>= fun r =>
      printErrors r.2 >>= fun _ =>
        .ret (.inl { p with client := r.1, command } : Playing ⊕ Playing)) (w,s)).1 ≠
      .error (.fault .outOfBounds) := by
  rcases hr : clientCommandProcess self command with f | r
  · intro hfault
    rw [hr] at h
    exact h (congrArg _ (Halt.fault.inj (Except.error.inj hfault)))
  · obtain ⟨s',hs'⟩ := run_printErrors d w s r.2
    rw [checked_ok, Program.ret_bind, run_bind, hs']
    exact ok_ne_error _ _

theorem playRead_overruns_iff (p : Playing) (x : Wire × Stdio) :
    (run (wired d terminal) (playRead p) x).1 = .error (.fault .outOfBounds) ↔
      p.client.status = .commandInvalid ∧ ¬ LineFits x.2.input := by
  obtain ⟨w,s⟩ := x
  rw [playRead]
  by_cases hs : p.client.status = .commandInvalid
  · rw [if_pos hs, and_iff_right hs]
    by_cases hfits : LineFits s.input
    · apply iff_of_false _ (not_not.mpr hfits)
      by_cases hend : s.input = []
      · rw [run_bind, run_readCommand_end d _ _ w hend, andThen_ok]
        exact run_processed d w s p _ _ (ok_ne_error _ _)
      · obtain ⟨s',hs'⟩ := run_readCommand_fits d { p.client with status := .ok } p.command w hend
          hfits
        rw [run_bind, hs', andThen_ok]
        exact run_processed d w s' p _ _ (process_inside _ _ hfits)
    · apply iff_of_true _ hfits
      rw [run_bind_stops]
      exact .inl (run_readCommand_overrun d _ _ w hfits)
  · rw [if_neg hs]
    exact iff_of_false (ok_ne_error _ _) fun h => hs h.1

def left (p : Playing) : Playing :=
  if p.client.command = 'E'.toUInt8 ∨ p.client.status = .eofReached then
    { p with client := { p.client with status := .endgame }, game := .endgame }
  else p

theorem run_playLeave (p : Playing) :
    ∃ k, run (wired d terminal) (playLeave p) (w,s) = (.ok (left p),⟨w.incoming,w.outgoing,k⟩,s) := by
  rw [playLeave, left]
  split
  · exact ⟨w.calls+1,rfl⟩
  · exact ⟨w.calls,rfl⟩

theorem run_sendCommand_ends (c : Command) :
    ∃ status out k, run (wired d terminal) (protocolSendCommand c) (w,s) =
      (.ok status,⟨w.incoming,out,k⟩,s) := by
  obtain ⟨status,out,k,h⟩ := run_sktSend_ends d terminal 1 [c.command] w s
  rw [protocolSendCommand, run_bind, h, andThen_ok]
  split
  · obtain ⟨_,out1,k1,h1⟩ := run_sktSend_ends d terminal 1 [c.row] ⟨w.incoming,out,k⟩ s
    obtain ⟨_,out2,k2,h2⟩ := run_sktSend_ends d terminal 1 [c.col] ⟨w.incoming,out1,k1⟩ s
    rw [run_bind, h1, andThen_ok, run_bind, h2, andThen_ok]
    exact run_sktSend_ends d terminal 1 [c.value] ⟨w.incoming,out2,k2⟩ s
  · exact ⟨status,out,k,rfl⟩

theorem receiveString_overruns_iff (received : Vector UInt8 receivedBoard) :
    (run (wired d terminal) (protocolReceiveString received) (w,s)).1 =
      .error (.fault .outOfBounds) ↔ ¬ AnswerFits w.incoming := by
  by_cases hfits : AnswerFits w.incoming
  · apply iff_of_false _ (not_not.mpr hfits)
    by_cases h0 : announced w.incoming = 0
    · obtain ⟨k,hk⟩ := run_receiveString_none d received w s h0
      rw [hk]
      exact ok_ne_error _ _
    · obtain ⟨k,hk⟩ := run_receiveString_fits d received w s
        (by have := hfits.1; omega) hfits.2
      rw [hk]
      exact ok_ne_error _ _
  · apply iff_of_true _ hfits
    apply run_receiveString_outside
    rw [AnswerFits] at hfits
    omega

theorem playCommand_overruns_iff (p : Playing) :
    (run (wired d terminal) (playCommand p) (w,s)).1 = .error (.fault .outOfBounds) ↔
      p.client.status = .commandValid ∧ ¬ AnswerFits w.incoming := by
  rw [playCommand]
  by_cases hs : p.client.status = .commandValid
  · obtain ⟨status,out,k,h⟩ := run_sendCommand_ends d w s (Client.toCommand p.client)
    rw [if_pos hs, and_iff_right hs, run_bind, h, andThen_ok, run_bind_ret_stops]
    exact receiveString_overruns_iff d ⟨w.incoming,out,k⟩ s p.received
  · rw [if_neg hs]
    exact iff_of_false (ok_ne_error _ _) fun h => hs h.1

theorem afterLoop_overruns_iff (p : Playing) :
    (run (wired d terminal) (playLeave p >>= fun p => playCommand p >>= fun p =>
      .ret (.inl p : Playing ⊕ Playing)) (w,s)).1 = .error (.fault .outOfBounds) ↔
      (left p).client.status = .commandValid ∧ ¬ AnswerFits w.incoming := by
  obtain ⟨k,hk⟩ := run_playLeave d w s p
  rw [run_bind, hk, andThen_ok, run_bind_ret_stops]
  exact playCommand_overruns_iff d ⟨w.incoming,w.outgoing,k⟩ s (left p)

end Turns

section Runs
variable (d : Delivery) (n : ℕ)

abbrev Moment := Playing × Wire × Stdio

def asking (p : Playing) : Playing :=
  { p with client := { p.client with status := .commandInvalid } }

def linesRead (t : Moment) : List Text :=
  if t.1.client.status ≠ .endgame then
    ((turns (wired d terminal) playRead n (asking t.1) t.2).filter
      fun u => u.1.client.status = .commandInvalid).map fun u => u.2.2.input
  else []

def answersAwaited (t : Moment) : List Text :=
  if t.1.client.status ≠ .endgame then
    match run (wired d terminal) (Program.iterate .running playRead n (asking t.1)) t.2 with
    | (.ok p,w,_) => if (left p).client.status = .commandValid then [w.incoming] else []
    | _ => []
  else []

def TurnFits (t : Moment) : Prop :=
  (∀ input ∈ linesRead d n t, LineFits input) ∧
    ∀ incoming ∈ answersAwaited d n t, AnswerFits incoming

theorem readLoop_overruns_iff (p : Playing) (x : Wire × Stdio) :
    (run (wired d terminal) (Program.iterate .running playRead n p) x).1 =
      .error (.fault .outOfBounds) ↔
    ∃ u ∈ turns (wired d terminal) playRead n p x,
      u.1.client.status = .commandInvalid ∧ ¬ LineFits u.2.2.input := by
  rw [iterate_stops_iff (wired d terminal) (by decide)]
  simp only [playRead_overruns_iff]

/-- A turn of the game leaves a buffer exactly when something in it does not fit. -/
theorem playTurn_overruns_iff (t : Moment) :
    (run (wired d terminal) (playTurn n t.1) t.2).1 = .error (.fault .outOfBounds) ↔
      ¬ TurnFits d n t := by
  rw [playTurn, TurnFits, linesRead, answersAwaited]
  by_cases hs : t.1.client.status ≠ .endgame
  · rw [if_pos hs, if_pos hs, if_pos hs, run_bind_stops, ← asking, readLoop_overruns_iff,
      not_and_or]
    apply or_congr
    · simp
    · rcases run (wired d terminal) (Program.iterate .running playRead n (asking t.1)) t.2 with
        ⟨e | p,w,s⟩
      · simp
      · simp [afterLoop_overruns_iff]
  · rw [if_neg hs, if_neg hs, if_neg hs]
    exact iff_of_false (ok_ne_error _ _) (by simp)

def played (client : Client) (game : SudokuStatus) (x : Wire × Stdio) : List Moment :=
  turns (wired d terminal) (playTurn n) n
    { client := Client.enter client, game,
      command := Vector.replicate maxCommandLength 1,
      received := Vector.replicate receivedBoard 0 } x

/-- A run of the client stays inside its buffers exactly when everything fits
that its turns read and receive. -/
theorem play_inside_iff (client : Client) (game : SudokuStatus) (x : Wire × Stdio) :
    (run (wired d terminal) (sudokuPlay n client game) x).1 ≠ .error (.fault .outOfBounds) ↔
      ∀ t ∈ played d n client game x, TurnFits d n t := by
  rw [sudokuPlay, ne_eq, iterate_stops_iff (wired d terminal) (by decide)]
  simp only [playTurn_overruns_iff, played, not_exists, not_and, not_not]

end Runs

/-- A line of 22 bytes leaves the buffer of the command, and a length of 900
the buffer of the answers. -/
theorem play_overruns :
    (run (wired byteByByte terminal) (sudokuPlay 3 ⟨0,0,0,0,.ok⟩ .argsOk)
        (⟨[],[],0⟩,⟨text "aaaaaaaaaaaaaaaaaaaaa\n",[],[]⟩)).1 = .error (.fault .outOfBounds) ∧
      (run (wired byteByByte terminal) (sudokuPlay 3 ⟨0,0,0,0,.ok⟩ .argsOk)
        (⟨text "900",[],0⟩,⟨text "get\n",[],[]⟩)).1 = .error (.fault .outOfBounds) ∧
      ¬ ∀ d n client game x, (run (wired d terminal) (sudokuPlay n client game) x).1 ≠
        .error (.fault .outOfBounds) := by
  have hline : (run (wired byteByByte terminal) (sudokuPlay 3 ⟨0,0,0,0,.ok⟩ .argsOk)
      (⟨[],[],0⟩,⟨text "aaaaaaaaaaaaaaaaaaaaa\n",[],[]⟩)).1 = .error (.fault .outOfBounds) := by
    decide +kernel
  have hheader : (run (wired byteByByte terminal) (sudokuPlay 3 ⟨0,0,0,0,.ok⟩ .argsOk)
      (⟨text "900",[],0⟩,⟨text "get\n",[],[]⟩)).1 = .error (.fault .outOfBounds) := by
    decide +kernel
  exact ⟨hline,hheader,fun h => h _ _ _ _ _ hline⟩

end Workshop.SudokuBuffers
