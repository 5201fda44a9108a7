import Workshop.SudokuLoad
import Workshop.SudokuProtocol

/-!
# The sudoku server on an arbitrary incoming stream

The three arguments of a put reach the board unchecked. A stream is safe for a
board exactly when each of its commands is harmless for the original digits:
no command before it can change that, since the original is never written.
-/

set_option autoImplicit false

namespace Workshop.SudokuWire
open Workshop.CMemory Workshop.InteractiveProgram Workshop.ByteChannel
open Workshop.SudokuBoard Workshop.SudokuVerify Workshop.SudokuRender
open Workshop.SudokuServer Workshop.SudokuLoad Workshop.SudokuProtocol

def logging : Handler record Halt (List Step) := fun st log => (.ok (),log++[st])

/-- The count by which the verification of a cell shifts. -/
def shiftCount (a : Vector UInt8 boardSize) (r c : Fin 9) : ℤ :=
  9-(schar (getElem a (cellIndex r c) (cellIndex_lt r c))-48)

def SafeStep (st : Step) : Prop :=
  DigitCells st.after.board ∧
    ∀ r c, 0 ≤ shiftCount st.before.board r c ∧ shiftCount st.before.board r c ≤ 9

def NoFault (x : Except Halt Serving) : Prop := ∀ f, x ≠ .error (.fault f)

section Serving
variable (d : Delivery) (messageLen : Vector UInt8 headerLen)

def serving (n : ℕ) (self : Server) (board : Board) (w : Wire) (log : List Step) :
    Except Halt Serving × Wire × List Step :=
  run (wired d logging) (serveCommands messageLen n self board) (w,log)

/-- No access outside an array and no unsafe step, in any number of commands. -/
def SafeFrom (self : Server) (board : Board) (w : Wire) (log : List Step) : Prop :=
  ∀ n, NoFault (serving d messageLen n self board w log).1 ∧
    ∀ st ∈ (serving d messageLen n self board w log).2.2, SafeStep st

def SafeSession (self : Server) (board : Board) (stream : Text) : Prop :=
  SafeFrom d messageLen self board ⟨stream,[],0⟩ []

end Serving

/-- The offset of a put, as an integer. -/
def offset (row col : UInt8) : ℤ := 18*((row.toNat:ℤ)-1)+(((2*(col.toNat-1))%256:ℕ):ℤ)

/-- A put stays inside the board, and where it changes a cell it stores a
digit. The cells are the even offsets up to 160. A reset finds a terminator. -/
def Harmless (original : Vector UInt8 boardSize) (c : Command) : Prop :=
  (c.command = 'P'.toUInt8 → ∃ k : Fin boardSize, offset c.row c.col = k.val ∧
    (k.val ≤ 160 → getElem original k k.isLt = 48 → c.value.toNat ≤ 9)) ∧
  (c.command = 'R'.toUInt8 → 0 ∈ original.toList)

theorem boardIndex_offset (row col : UInt8) : boardIndex row col = offset row col :=
  boardIndex_eq row col

theorem harmless_receive (original : Vector UInt8 boardSize) (self : Server) (c : Command) :
    Harmless original (Server.toCommand (self.receive c)) ↔ Harmless original c := by
  by_cases hP : c.command = 'P'.toUInt8
  · simp [Harmless, Server.toCommand, Server.receive, hP]
  · simp [Harmless, Server.toCommand, Server.receive, hP]

theorem cell_of_offset {row col : UInt8} {k : Fin boardSize} (hk : offset row col = k.val)
    (hle : k.val ≤ 160) : ∃ r c, k = cellIndex r c := by
  have heven : ∃ m, k.val = 2*m := by
    refine ⟨(18*((row.toNat:ℤ)-1)+(((2*(col.toNat-1))%256:ℕ):ℤ)).toNat/2,?_⟩
    rw [offset] at hk
    omega
  obtain ⟨m,hm⟩ := heven
  refine ⟨⟨k.val/18,by omega⟩,⟨k.val%18/2,by omega⟩,?_⟩
  apply Fin.ext
  simp only [cellIndex]
  omega

theorem cellIndex_le (r c : Fin 9) : (cellIndex r c).val ≤ 160 := by
  have := r.isLt
  have := c.isLt
  simp only [cellIndex]
  omega

theorem stored_isDigit_iff (value : UInt8) : IsDigit (value+48) ↔ value.toNat ≤ 9 := by
  have hlt := value.toNat_lt
  have h48 : (48:UInt8).toNat = 48 := rfl
  rw [IsDigit, UInt8.toNat_add, h48]
  omega

theorem shiftCount_digits {a : Vector UInt8 boardSize} (h : DigitCells a) (r c : Fin 9) :
    0 ≤ shiftCount a r c ∧ shiftCount a r c ≤ 9 := by
  have hd := h r c
  rw [shiftCount, schar_sub_digit hd]
  have := hd.2
  omega

theorem set_cells_iff {a : Vector UInt8 boardSize} (h : DigitCells a) (k : Fin boardSize)
    (v : UInt8) : DigitCells (a.set k v k.isLt) ↔ ∀ r c, k = cellIndex r c → IsDigit v := by
  constructor
  · rintro hs r c rfl
    simpa using hs r c
  · intro hv r c
    by_cases hk : k = cellIndex r c
    · subst hk
      simpa using hv r c rfl
    · have hne : k.val ≠ (cellIndex r c).val := fun he => hk (Fin.ext he)
      simpa [hne] using h r c

theorem put_inside (b : Board) (value : UInt8) {row col : UInt8} {k : Fin boardSize}
    (hk : boardIndex row col = k.val) :
    boardPut b row col value =
      .ok (if b.boardOriginal[k] = 48 then { b with board := b.board.set k (value+48) }
        else { b with status := .nonModifiableValue }) := by
  rw [boardPut, boardValueGetOriginal, hk, fetch_nat _ _ k.isLt, ok_bind, boardValueSet, hk,
    store_nat _ _ k.isLt]
  change (if schar b.boardOriginal[k]-48 ≠ 0 then _ else _) = _
  by_cases h : b.boardOriginal[k] = 48
  · rw [if_neg (not_not.mpr (schar_digit_zero.mpr h)), if_pos h]
    rfl
  · rw [if_pos (fun hz => h (schar_digit_zero.mp hz)), if_neg h]

theorem put_outside (b : Board) {row col value : UInt8}
    (h : ¬ ∃ k : Fin boardSize, offset row col = k.val) :
    boardPut b row col value = .error .outOfBounds := by
  have hout : ¬ (0 ≤ boardIndex row col ∧ (boardIndex row col).toNat < boardSize) := by
    rintro ⟨h0,hlt⟩
    rw [boardIndex_offset] at h0 hlt
    exact h ⟨⟨_,hlt⟩,(Int.toNat_of_nonneg h0).symm⟩
  rw [boardPut, boardValueGetOriginal, fetch_fault _ _ hout]
  rfl

section Commands
variable {self : Server} {b b' : Board}

theorem process_put (hP : self.command = 'P'.toUInt8)
    (hput : boardPut b self.row self.col self.value = .ok b') :
    serverProcessCommand self b =
      if b'.status = .nonModifiableValue then
        .ok ⟨self,{ b' with status := .ok },[msgNonModifiableCell]⟩
      else serverSendBoard b' >>= fun sb => .ok ⟨self,b',[sb]⟩ := by
  rw [serverProcessCommand, if_pos hP, hput]
  rfl

theorem process_put_digits (hP : self.command = 'P'.toUInt8)
    (hput : boardPut b self.row self.col self.value = .ok b') (hd : DigitCells b'.board) :
    ∃ served, serverProcessCommand self b = .ok served ∧ served.board.board = b'.board ∧
      served.board.boardOriginal = b'.boardOriginal := by
  rw [process_put hP hput, sendBoard_eq _ hd]
  split
  · exact ⟨_,rfl,rfl,rfl⟩
  · exact ⟨_,rfl,rfl,rfl⟩

theorem process_put_board (hP : self.command = 'P'.toUInt8)
    (hput : boardPut b self.row self.col self.value = .ok b') {served : Served}
    (h : serverProcessCommand self b = .ok served) : served.board.board = b'.board := by
  rw [process_put hP hput] at h
  split at h
  · cases h
    rfl
  · obtain ⟨sb,_,he⟩ := bind_eq_ok h
    cases he
    rfl

theorem digits_flag {p : Prop} [Decidable p] (h : DigitCells b.board) :
    DigitCells (flag b p).board := by
  rw [flag_board]
  exact h

theorem process_harmless (hb : DigitCells b.board) (ho : DigitCells b.boardOriginal)
    (h : Harmless b.boardOriginal (Server.toCommand self)) :
    ∃ served, serverProcessCommand self b = .ok served ∧ DigitCells served.board.board ∧
      served.board.boardOriginal = b.boardOriginal := by
  by_cases hP : self.command = 'P'.toUInt8
  · obtain ⟨k,hk,hv⟩ := h.1 hP
    have hput := put_inside b self.value ((boardIndex_offset _ _).trans hk)
    have hd : DigitCells (if b.boardOriginal[k] = 48 then
        { b with board := b.board.set k (self.value+48) }
        else { b with status := .nonModifiableValue }).board := by
      split
      · rename_i h48
        apply (set_cells_iff hb k _).mpr
        intro r c hrc
        exact (stored_isDigit_iff _).mpr (hv (hrc ▸ cellIndex_le r c) h48)
      · exact hb
    obtain ⟨served,hs,hboard,horiginal⟩ := process_put_digits hP hput hd
    refine ⟨served,hs,hboard ▸ hd,?_⟩
    rw [horiginal]
    split <;> rfl
  by_cases hV : self.command = 'V'.toUInt8
  · rw [serverProcessCommand, if_neg hP, if_pos hV, verify_digits b hb, ok_bind]
    split
    · exact ⟨_,rfl,digits_flag hb,flag_original _ _⟩
    · exact ⟨_,rfl,digits_flag hb,flag_original _ _⟩
  by_cases hR : self.command = 'R'.toUInt8
  · have hd := resetBoard_cells hb ho (h.2 hR)
    have hor : (resetBoard b).boardOriginal = b.boardOriginal := by simp only [resetBoard]
    rw [serverProcessCommand, if_neg hP, if_neg hV, if_pos hR, resetBoard_eq (h.2 hR), ok_bind,
      sendBoard_eq _ hd]
    exact ⟨⟨self,resetBoard b,[rendering (resetBoard b)]⟩,rfl,hd,hor⟩
  by_cases hG : self.command = 'G'.toUInt8
  · rw [serverProcessCommand, if_neg hP, if_neg hV, if_neg hR, if_pos hG, sendBoard_eq _ hb]
    exact ⟨_,rfl,hb,rfl⟩
  · rw [serverProcessCommand, if_neg hP, if_neg hV, if_neg hR, if_neg hG]
    split
    · exact ⟨_,rfl,hb,rfl⟩
    · exact ⟨_,rfl,hb,rfl⟩

/-- A command which is not harmless leaves an array or spoils a cell. -/
theorem process_harmful (hb : DigitCells b.board)
    (h : ¬ Harmless b.boardOriginal (Server.toCommand self)) :
    (∃ f, serverProcessCommand self b = .error f) ∨
      ∃ served, serverProcessCommand self b = .ok served ∧ ¬ DigitCells served.board.board := by
  rcases hres : serverProcessCommand self b with f | served
  · exact .inl ⟨f,rfl⟩
  refine .inr ⟨served,rfl,?_⟩
  intro hd
  apply h
  constructor
  · intro hP
    change self.command = _ at hP
    by_cases hk : ∃ k : Fin boardSize, offset self.row self.col = k.val
    · obtain ⟨k,hk⟩ := hk
      refine ⟨k,hk,?_⟩
      intro hle h48
      have hput := put_inside b self.value ((boardIndex_offset _ _).trans hk)
      rw [if_pos h48] at hput
      rw [process_put_board hP hput hres] at hd
      obtain ⟨r,c,hrc⟩ := cell_of_offset hk hle
      exact (stored_isDigit_iff _).mp ((set_cells_iff hb k _).mp hd r c hrc)
    · rw [serverProcessCommand, if_pos hP, put_outside b hk] at hres
      cases hres
  · intro hR
    change self.command = _ at hR
    by_contra ht
    have hP : ¬ self.command = 'P'.toUInt8 := by rw [hR]; decide
    have hV : ¬ self.command = 'V'.toUInt8 := by rw [hR]; decide
    rw [serverProcessCommand, if_neg hP, if_neg hV, if_pos hR, boardReset_fault ht] at hres
    cases hres

end Commands

section Runs
variable (d : Delivery) (messageLen : Vector UInt8 headerLen) (self : Server) (b : Board)

theorem serving_none (w : Wire) (log : List Step) :
    (serving d messageLen 0 self b w log).2.2 = log ∧
      NoFault (serving d messageLen 0 self b w log).1 := by
  rcases hnext : nextCommand w.incoming with _ | ⟨c,rest⟩
  · obtain ⟨self',k,hk⟩ := run_receiveCommand_end d logging hnext self w.outgoing w.calls log
    rw [serving, serveCommands, run_bind, hk]
    exact ⟨rfl,nofun⟩
  · obtain ⟨k,hk⟩ := run_receiveCommand d logging hnext self w.outgoing w.calls log
    rw [serving, serveCommands, run_bind, hk]
    exact ⟨rfl,nofun⟩

theorem serving_end {w : Wire} (hnext : nextCommand w.incoming = none) (n : ℕ) (log : List Step) :
    (serving d messageLen n self b w log).2.2 = log ∧
      NoFault (serving d messageLen n self b w log).1 := by
  obtain ⟨self',k,hk⟩ := run_receiveCommand_end d logging hnext self w.outgoing w.calls log
  rw [serving, serveCommands, run_bind, hk, andThen_ok]
  cases n with
  | zero => exact ⟨rfl,fun f h => by cases h⟩
  | succ n =>
    rw [Program.iterate, serveCommand, if_neg (by simp)]
    exact ⟨rfl,fun f h => by cases h⟩

theorem serving_fault {w : Wire} {c : Command} {rest : Text} {f : Fault}
    (hnext : nextCommand w.incoming = some (c,rest))
    (hp : serverProcessCommand (self.receive c) b = .error f) (n : ℕ) (log : List Step) :
    (serving d messageLen (n+1) self b w log).1 = .error (.fault f) ∧
      (serving d messageLen (n+1) self b w log).2.2 = log := by
  obtain ⟨k,hk⟩ := run_receiveCommand d logging hnext self w.outgoing w.calls log
  rw [serving, serveCommands, run_bind, hk, andThen_ok, Program.iterate, serveCommand, if_pos rfl,
    hp]
  exact ⟨rfl,rfl⟩

/-- The step lemma: a processed command is recorded, and the server goes on
behind it. -/
theorem serving_next {w : Wire} {c : Command} {rest : Text} {served : Served}
    (hnext : nextCommand w.incoming = some (c,rest))
    (hp : serverProcessCommand (self.receive c) b = .ok served) (log : List Step) :
    ∃ out k, ∀ n, serving d messageLen (n+1) self b w log =
      serving d messageLen n served.self served.board ⟨rest,out,k⟩
        (log++[⟨Server.toCommand (self.receive c),b,served.board,served.sent⟩]) := by
  obtain ⟨k1,h1⟩ := run_receiveCommand d logging hnext self w.outgoing w.calls log
  obtain ⟨out,k,h2⟩ := run_sendStrings_ends d logging messageLen served.sent ⟨rest,w.outgoing,k1⟩
    (log++[⟨Server.toCommand (self.receive c),b,served.board,served.sent⟩])
  refine ⟨out,k,?_⟩
  intro n
  rw [serving, serveCommands, run_bind, h1, andThen_ok, Program.iterate, serveCommand, if_pos rfl,
    hp]
  simp only [Program.call_bind, run_call, wired, logging, andThen_ok, Program.bind_bind, run_bind,
    h2, Program.ret_bind, serving, serveCommands]

end Runs

theorem safeFrom_log {d : Delivery} {messageLen : Vector UInt8 headerLen} {self : Server}
    {b : Board} {w : Wire} {log : List Step} (h : SafeFrom d messageLen self b w log) :
    ∀ st ∈ log, SafeStep st := by
  have h0 := (h 0).2
  rw [(serving_none d messageLen self b w log).1] at h0
  exact h0

theorem safeFrom_end (d : Delivery) (messageLen : Vector UInt8 headerLen) (self : Server)
    (b : Board) {w : Wire} (log : List Step) (hnext : nextCommand w.incoming = none) :
    SafeFrom d messageLen self b w log ↔ ∀ st ∈ log, SafeStep st := by
  constructor
  · exact safeFrom_log
  · intro hlog n
    have hend := serving_end d messageLen self b hnext n log
    rw [hend.1]
    exact ⟨hend.2,hlog⟩

theorem safeFrom_next (d : Delivery) (messageLen : Vector UInt8 headerLen) (self : Server)
    (b : Board) {w : Wire} {c : Command} {rest : Text} {served : Served} (log : List Step)
    (hnext : nextCommand w.incoming = some (c,rest))
    (hp : serverProcessCommand (self.receive c) b = .ok served) :
    ∃ out k, SafeFrom d messageLen self b w log ↔ (∀ st ∈ log, SafeStep st) ∧
      SafeFrom d messageLen served.self served.board ⟨rest,out,k⟩
        (log++[⟨Server.toCommand (self.receive c),b,served.board,served.sent⟩]) := by
  obtain ⟨out,k,hrun⟩ := serving_next d messageLen self b hnext hp log
  have hnone := serving_none d messageLen self b w log
  refine ⟨out,k,?_⟩
  constructor
  · intro hs
    exact ⟨safeFrom_log hs,fun n => hrun n ▸ hs (n+1)⟩
  · rintro ⟨hlog,hs⟩ n
    cases n with
    | zero =>
      rw [hnone.1]
      exact ⟨hnone.2,hlog⟩
    | succ n => exact hrun n ▸ hs n

theorem not_safeFrom_harmful (d : Delivery) (messageLen : Vector UInt8 headerLen) (self : Server)
    {b : Board} {w : Wire} {c : Command} {rest : Text} (log : List Step)
    (hb : DigitCells b.board) (hnext : nextCommand w.incoming = some (c,rest))
    (hc : ¬ Harmless b.boardOriginal c) : ¬ SafeFrom d messageLen self b w log := by
  intro hs
  have hself : ¬ Harmless b.boardOriginal (Server.toCommand (self.receive c)) :=
    fun h => hc ((harmless_receive _ _ _).mp h)
  rcases process_harmful hb hself with ⟨f,hp⟩ | ⟨served,hp,hd⟩
  · exact (hs 1).1 f (serving_fault d messageLen self b hnext hp 0 log).1
  · obtain ⟨out,k,hiff⟩ := safeFrom_next d messageLen self b log hnext hp
    have hstep := safeFrom_log (hiff.mp hs).2 _ (List.mem_append_right log (List.mem_singleton_self _))
    exact hd hstep.1

/-- The exact condition, by induction on what is still to be read. -/
theorem safeFrom_iff (d : Delivery) (messageLen : Vector UInt8 headerLen) (self : Server)
    (b : Board) (w : Wire) (log : List Step) (hb : DigitCells b.board)
    (ho : DigitCells b.boardOriginal) :
    SafeFrom d messageLen self b w log ↔
      (∀ st ∈ log, SafeStep st) ∧ ∀ c ∈ decode w.incoming, Harmless b.boardOriginal c := by
  induction hm : w.incoming.length using Nat.strong_induction_on generalizing self b w log with
  | _ m ih =>
    subst hm
    rw [decode_next]
    rcases hnext : nextCommand w.incoming with _ | ⟨c,rest⟩
    · rw [safeFrom_end d messageLen self b log hnext]
      simp
    · simp only [List.forall_mem_cons]
      by_cases hc : Harmless b.boardOriginal c
      · obtain ⟨served,hp,hd,hor⟩ :=
          process_harmless hb ho ((harmless_receive b.boardOriginal self c).mpr hc)
        obtain ⟨out,k,hiff⟩ := safeFrom_next d messageLen self b log hnext hp
        have hih := ih rest.length (nextCommand_length hnext) served.self served.board ⟨rest,out,k⟩
          (log++[⟨Server.toCommand (self.receive c),b,served.board,served.sent⟩]) hd (hor ▸ ho) rfl
        have hstep : SafeStep ⟨Server.toCommand (self.receive c),b,served.board,served.sent⟩ :=
          ⟨hd,shiftCount_digits hb⟩
        rw [hor] at hih
        rw [hiff, hih]
        simp only [List.forall_mem_append, List.forall_mem_singleton, hstep, and_true, hc,
          true_and]
        tauto
      · have hnot := not_safeFrom_harmful d messageLen self log hb hnext hc
        tauto

/-- Every access stays inside its array, the cells stay digits and the shift
counts of the verification stay between 0 and 9, exactly when each command of
the stream is harmless. -/
theorem safe_session_iff (d : Delivery) (messageLen : Vector UInt8 headerLen) (self : Server)
    (b : Board) (stream : Text) (hb : DigitCells b.board) (ho : DigitCells b.boardOriginal) :
    SafeSession d messageLen self b stream ↔ ∀ c ∈ decode stream, Harmless b.boardOriginal c := by
  rw [SafeSession, safeFrom_iff d messageLen self b _ _ hb ho]
  simp

theorem emptyBoard_digits : DigitCells emptyBoard.board := emptyBoard_loaded.cells

theorem row_zero_unsafe :
    DigitCells emptyBoard.board ∧ DigitCells emptyBoard.boardOriginal ∧
      ¬ SafeSession byteByByte (Vector.replicate headerLen 0) ⟨0,0,0,0,.ok⟩ emptyBoard
        ['P'.toUInt8,0,1,1] := by
  refine ⟨emptyBoard_digits,emptyBoard_digits,?_⟩
  apply not_safeFrom_harmful _ _ _ _ emptyBoard_digits rfl
  intro h
  obtain ⟨k,hk,-⟩ := h.1 rfl
  have hneg : offset 0 1 = -18 := by decide
  rw [hneg] at hk
  omega

theorem safe_session_iff_put :
    DigitCells emptyBoard.board ∧ DigitCells emptyBoard.boardOriginal ∧
      SafeSession byteByByte (Vector.replicate headerLen 0) ⟨0,0,0,0,.ok⟩ emptyBoard
        ['P'.toUInt8,1,1,5] := by
  refine ⟨emptyBoard_digits,emptyBoard_digits,?_⟩
  apply (safe_session_iff _ _ _ _ _ emptyBoard_digits emptyBoard_digits).mpr
  intro c hc
  obtain rfl : c = ⟨'P'.toUInt8,1,1,5⟩ := by simpa [decode] using hc
  exact ⟨fun _ => ⟨0,by decide,fun _ _ => by decide⟩,fun h => absurd h (by decide)⟩

end Workshop.SudokuWire
