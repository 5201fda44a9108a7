import Workshop.SudokuVerify
import Workshop.SudokuRender

/-!
# Commands handled by the sudoku server

`server_process_command` answers every command with one string. The strings
handed to `protocol_send_string` are returned, the console output of the
server is left out. A run handles a list of commands in order.
-/

set_option autoImplicit false

namespace Workshop.SudokuServer
open Workshop.CMemory Workshop.SudokuBoard Workshop.SudokuGrid
open Workshop.SudokuVerify Workshop.SudokuRender

def msgNonModifiableCell : Text := text "La celda indicada no es modificable\n"
def msgErrorVerify : Text := text "ERROR\n"
def msgOkVerify : Text := text "OK\n"
def msgInvalidCmd : Text := text "Se ingresó un comando invalido "

inductive ServerStatus where
  | ok
  | commandInvalid
  | disconnectedClient
  deriving DecidableEq, Repr

structure Server where
  command : UInt8
  row : UInt8
  col : UInt8
  value : UInt8
  status : ServerStatus
  deriving DecidableEq, Repr

structure Served where
  self : Server
  board : Board
  sent : List Text

def serverProcessCommand (self : Server) (board : Board) : Checked Served :=
  if self.command = 'P'.toUInt8 then do
    let board ← boardPut board self.row self.col self.value
    if board.status = .nonModifiableValue then
      .ok ⟨self,{ board with status := .ok },[msgNonModifiableCell]⟩
    else do
      let sb ← serverSendBoard board
      .ok ⟨self,board,[sb]⟩
  else if self.command = 'V'.toUInt8 then do
    let board ← boardVerify board
    if board.status = .invalid then .ok ⟨self,board,[msgErrorVerify]⟩
    else .ok ⟨self,board,[msgOkVerify]⟩
  else if self.command = 'R'.toUInt8 then do
    let board ← boardReset board
    let sb ← serverSendBoard board
    .ok ⟨self,board,[sb]⟩
  else if self.command = 'G'.toUInt8 then do
    let sb ← serverSendBoard board
    .ok ⟨self,board,[sb]⟩
  else if self.command = 'E'.toUInt8 then
    -- the case has no `break`: the default answer follows
    .ok ⟨{ self with status := .disconnectedClient },board,[msgInvalidCmd]⟩
  else .ok ⟨self,board,[msgInvalidCmd]⟩

def serverBoardRead (board : Board) (file : Option Text) : Checked Board := do
  let board ← boardRead board file
  .ok { board with status := .ok }

/-- The four bytes of a command. Only `'P'` carries the last three. -/
structure Command where
  command : UInt8
  row : UInt8
  col : UInt8
  value : UInt8
  deriving DecidableEq, Repr

def Server.receive (self : Server) (c : Command) : Server :=
  if c.command = 'P'.toUInt8 then
    { self with command := c.command, row := c.row, col := c.col, value := c.value }
  else { self with command := c.command }

@[simp] theorem receive_command (self : Server) (c : Command) :
    (self.receive c).command = c.command := by
  unfold Server.receive
  split <;> rfl

structure Step where
  command : Command
  before : Board
  after : Board
  sent : List Text

def serverRun (self : Server) (board : Board) : List Command → Checked (List Step)
  | [] => .ok []
  | c::cs => do
    let served ← serverProcessCommand (self.receive c) board
    let steps ← serverRun served.self served.board cs
    .ok (⟨c,board,served.board,served.sent⟩::steps)

def finalBoard (board : Board) (steps : List Step) : Board :=
  (steps.getLast?.map Step.after).getD board

inductive Move where
  | put (r c : Fin 9) (value : Fin 10)
  | verify
  | reset
  | get
  deriving DecidableEq, Repr

def digitByte (v : Fin 10) : UInt8 := UInt8.ofNat v.val

def Move.toCommand : Move → Command
  | .put r c value => ⟨'P'.toUInt8,ordinal r,ordinal c,digitByte value⟩
  | .verify => ⟨'V'.toUInt8,0,0,0⟩
  | .reset => ⟨'R'.toUInt8,0,0,0⟩
  | .get => ⟨'G'.toUInt8,0,0,0⟩

def digitChar (v : Fin 10) : UInt8 := digitByte v+48

theorem digitChar_isDigit (v : Fin 10) : IsDigit (digitChar v) := by
  revert v
  decide

def putBoard (b : Board) (r c : Fin 9) (v : Fin 10) : Board :=
  { b with board := b.board.set (cellIndex r c) (digitChar v) (cellIndex_lt r c) }

def resetBoard (b : Board) : Board where
  board := snprintf b.board (b.boardOriginal.toList.takeWhile (· ≠ 0))
  boardOriginal := b.boardOriginal
  status := .ok

def serveMove (b : Board) : Move → Board × Text
  | .put r c v =>
    if getElem b.boardOriginal (cellIndex r c) (cellIndex_lt r c) = 48 then
      (putBoard b r c v,rendering (putBoard b r c v))
    else ({ b with status := .ok },msgNonModifiableCell)
  | .verify =>
    let b := flag b (Conflict (gridOf b.board))
    (b,if b.status = .invalid then msgErrorVerify else msgOkVerify)
  | .reset => (resetBoard b,rendering (resetBoard b))
  | .get => (b,rendering b)

/-- Boards on which the moves run: digits in the cells of both arrays and no
refusal left pending in the status. -/
structure InPlay (b : Board) : Prop where
  cells : DigitCells b.board
  original : DigitCells b.boardOriginal
  status : b.status ≠ .nonModifiableValue

def Terminated (b : Board) : Prop := 0 ∈ b.boardOriginal.toList

instance (b : Board) : Decidable (Terminated b) := inferInstanceAs (Decidable (_ ∈ _))

theorem putBoard_cells {b : Board} (hd : DigitCells b.board) (r c : Fin 9) (v : Fin 10) :
    DigitCells (putBoard b r c v).board := by
  intro r' c'
  by_cases h : (cellIndex r c).val = (cellIndex r' c').val
  · simpa [putBoard, h] using digitChar_isDigit v
  · simpa [putBoard, h] using hd r' c'

theorem resetBoard_eq {b : Board} (h : Terminated b) :
    boardReset b = .ok (resetBoard b) := by
  rw [boardReset, cString, if_pos (by exact h)]
  rfl

theorem boardReset_fault {b : Board} (h : ¬ Terminated b) :
    boardReset b = .error .outOfBounds := by
  rw [boardReset, cString, if_neg (by exact h)]
  rfl

theorem resetBoard_cells {b : Board} (hd : DigitCells b.board) (ho : DigitCells b.boardOriginal)
    (h : Terminated b) : DigitCells (resetBoard b).board := by
  intro r c
  have hget := snprintf_string b.board b.boardOriginal h _ (cellIndex r c).isLt
  change IsDigit (snprintf b.board _)[(cellIndex r c).val]
  rw [hget]
  split
  · exact ho r c
  · exact hd r c

/-- The step lemma: on a board in play a move faults only where a reset finds
no terminator, and it is answered with exactly one string. -/
theorem process_move (s : Server) (b : Board) (m : Move) (h : InPlay b)
    (ht : m = .reset → Terminated b) :
    serverProcessCommand (s.receive m.toCommand) b =
      .ok ⟨s.receive m.toCommand,(serveMove b m).1,[(serveMove b m).2]⟩ := by
  cases m with
  | put r c v =>
    have hp := put_cell b r c (digitByte v)
    by_cases ho : b.boardOriginal[cellIndex r c] = 48
    · rw [if_pos ho] at hp
      change _ = Except.ok (putBoard b r c v) at hp
      simp only [serverProcessCommand, Server.receive, Move.toCommand, if_true, hp, ok_bind,
        serveMove, if_pos ho, sendBoard_eq _ (putBoard_cells h.cells r c v)]
      exact if_neg h.status
    · rw [if_neg ho] at hp
      simp only [serverProcessCommand, Server.receive, Move.toCommand, if_true, hp, ok_bind,
        serveMove, if_neg ho]
  | verify =>
    have hv := verify_digits b h.cells
    have hP : ¬ 'V'.toUInt8 = 'P'.toUInt8 := by decide
    simp only [serverProcessCommand, receive_command, Move.toCommand, if_neg hP, if_true, hv,
      ok_bind, serveMove]
    split <;> rfl
  | reset =>
    have hr := resetBoard_eq (ht rfl)
    have hs := sendBoard_eq _ (resetBoard_cells h.cells h.original (ht rfl))
    have hP : ¬ 'R'.toUInt8 = 'P'.toUInt8 := by decide
    have hV : ¬ 'R'.toUInt8 = 'V'.toUInt8 := by decide
    simp only [serverProcessCommand, receive_command, Move.toCommand, if_neg hP, if_neg hV,
      if_true, hr, hs, ok_bind, serveMove]
  | get =>
    have hP : ¬ 'G'.toUInt8 = 'P'.toUInt8 := by decide
    have hV : ¬ 'G'.toUInt8 = 'V'.toUInt8 := by decide
    have hR : ¬ 'G'.toUInt8 = 'R'.toUInt8 := by decide
    simp only [serverProcessCommand, receive_command, Move.toCommand, if_neg hP, if_neg hV,
      if_neg hR, if_true, sendBoard_eq _ h.cells, ok_bind, serveMove]

theorem process_unterminated (s : Server) (b : Board) (h : ¬ Terminated b) :
    serverProcessCommand (s.receive Move.reset.toCommand) b = .error .outOfBounds := by
  have hP : ¬ 'R'.toUInt8 = 'P'.toUInt8 := by decide
  have hV : ¬ 'R'.toUInt8 = 'V'.toUInt8 := by decide
  simp only [serverProcessCommand, receive_command, Move.toCommand, if_neg hP, if_neg hV,
    if_true, boardReset_fault h, error_bind]

def moveCells (original cells : Vector UInt8 boardSize) : Move → Vector UInt8 boardSize
  | .put r c v =>
    if getElem original (cellIndex r c) (cellIndex_lt r c) = 48 then
      cells.set (cellIndex r c) (digitChar v) (cellIndex_lt r c)
    else cells
  | .verify => cells
  | .reset => snprintf cells (original.toList.takeWhile (· ≠ 0))
  | .get => cells

def cellsAfter (original cells : Vector UInt8 boardSize) (ms : List Move) :
    Vector UInt8 boardSize :=
  ms.foldl (moveCells original) cells

theorem cellsAfter_concat (original cells : Vector UInt8 boardSize) (ms : List Move) (m : Move) :
    cellsAfter original cells (ms ++ [m]) = moveCells original (cellsAfter original cells ms) m := by
  simp [cellsAfter]

@[simp] theorem serveMove_board (b : Board) (m : Move) :
    (serveMove b m).1.board = moveCells b.boardOriginal b.board m := by
  cases m with
  | put r c v => simp only [serveMove, moveCells, putBoard]; split <;> rfl
  | verify => simp only [serveMove, flag_board, moveCells]
  | reset => rfl
  | get => rfl

@[simp] theorem serveMove_original (b : Board) (m : Move) :
    (serveMove b m).1.boardOriginal = b.boardOriginal := by
  cases m with
  | put r c v => simp only [serveMove, putBoard]; split <;> rfl
  | verify => simp only [serveMove, flag_original]
  | reset => simp only [serveMove, resetBoard]
  | get => rfl

theorem serveMove_inPlay (b : Board) (m : Move) (h : InPlay b)
    (ht : m = .reset → Terminated b) : InPlay (serveMove b m).1 := by
  refine ⟨?_,by rw [serveMove_original]; exact h.original,?_⟩
  · rw [serveMove_board]
    cases m with
    | put r c v =>
      simp only [moveCells]
      split
      · exact putBoard_cells h.cells r c v
      · exact h.cells
    | verify => exact h.cells
    | reset => exact resetBoard_cells h.cells h.original (ht rfl)
    | get => exact h.cells
  · cases m with
    | put r c v =>
      simp only [serveMove]
      split
      · exact h.status
      · exact fun h => BoardStatus.noConfusion h
    | verify =>
      simp only [serveMove]
      exact flag_status_ne h.status
    | reset => exact fun h => BoardStatus.noConfusion h
    | get => exact h.status

def serveMoves (b : Board) : List Move → List Step
  | [] => []
  | m::ms => ⟨m.toCommand,b,(serveMove b m).1,[(serveMove b m).2]⟩::serveMoves (serveMove b m).1 ms

def boardAfter (b : Board) (ms : List Move) : Board := ms.foldl (fun b m => (serveMove b m).1) b

/-- The run lemma: a run of moves faults exactly where a reset has nothing
terminated to copy, and otherwise passes through `serveMoves`. -/
theorem run_moves (s : Server) (b : Board) (ms : List Move) (h : InPlay b) :
    ((.reset ∈ ms → Terminated b) → serverRun s b (ms.map Move.toCommand) =
      .ok (serveMoves b ms)) ∧
    (.reset ∈ ms → ¬ Terminated b →
      serverRun s b (ms.map Move.toCommand) = .error .outOfBounds) := by
  induction ms generalizing s b with
  | nil => simp [serverRun, serveMoves]
  | cons m ms ih =>
    have hstep : ∀ ht : m = .reset → Terminated b,
        serverRun s b ((m::ms).map Move.toCommand) = (do
          let steps ← serverRun (s.receive m.toCommand) (serveMove b m).1 (ms.map Move.toCommand)
          .ok (⟨m.toCommand,b,(serveMove b m).1,[(serveMove b m).2]⟩::steps)) := by
      intro ht
      rw [List.map_cons, serverRun, process_move s b m h ht, ok_bind]
    have hterm : Terminated (serveMove b m).1 ↔ Terminated b := by
      rw [Terminated, serveMove_original, Terminated]
    constructor
    · intro ht
      have hm : m = .reset → Terminated b := fun hr => ht (by simp [hr])
      rw [hstep hm, (ih _ _ (serveMove_inPlay b m h hm)).1
        (fun hr => hterm.mpr (ht (by simp [hr])))]
      rfl
    · intro hr ht
      by_cases hm : m = .reset
      · subst hm
        rw [List.map_cons, serverRun, process_unterminated s b ht]
        rfl
      · have hms : .reset ∈ ms := (List.mem_cons.mp hr).resolve_left (fun h => hm h.symm)
        rw [hstep (fun h => absurd h hm), (ih _ _ (serveMove_inPlay b m h (fun h => absurd h hm))).2
          hms (fun h => ht (hterm.mp h))]
        rfl

theorem boardAfter_board (b : Board) (ms : List Move) :
    (boardAfter b ms).board = cellsAfter b.boardOriginal b.board ms ∧
      (boardAfter b ms).boardOriginal = b.boardOriginal := by
  induction ms generalizing b with
  | nil => exact ⟨rfl,rfl⟩
  | cons m ms ih =>
    have h := ih (serveMove b m).1
    rw [serveMove_board, serveMove_original] at h
    exact h

theorem finalBoard_serveMoves (b : Board) (ms : List Move) :
    finalBoard b (serveMoves b ms) = boardAfter b ms := by
  induction ms generalizing b with
  | nil => rfl
  | cons m ms ih =>
    rw [boardAfter, List.foldl_cons]
    refine Eq.trans ?_ (ih _)
    cases ms <;> rfl

end Workshop.SudokuServer
