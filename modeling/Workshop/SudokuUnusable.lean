import Workshop.SudokuWire
import Workshop.SudokuPlay

/-!
# Board files without a board

`board_read` stores whatever the file holds, and `server_board_read` replaces
the status it reports. A missing, short or misaligned file is served like any
other one, and a file that is too long leaves the arrays.
-/

set_option autoImplicit false

namespace Workshop.SudokuUnusable
open Workshop.CMemory Workshop.InteractiveProgram Workshop.ByteChannel
open Workshop.SudokuBoard Workshop.SudokuRender Workshop.SudokuServer Workshop.SudokuLoad
open Workshop.SudokuProtocol Workshop.SudokuStrings Workshop.SudokuWire Workshop.SudokuPlay

def Usable (file : Option Text) : Prop :=
  ∃ content, file = some content ∧ (kept content).length ≤ boardSize ∧
    DigitCells (fileImage content)

section Sessions
variable (d : Delivery) (messageLen : Vector UInt8 headerLen)

def processed (n : ℕ) (server : Server) (status : BoardStatus) (file : Option Text)
    (game : SudokuStatus) (stream : Text) : List Step :=
  (run (wired d logging) (sudokuRunServer messageLen n server (blankBoard status) file game)
    (⟨stream,[],0⟩,[])).2.2

variable {d messageLen} {n : ℕ} {server : Server} {status : BoardStatus} {file : Option Text}
  {b : Board} (game : SudokuStatus) (stream : Text)

theorem processed_loaded (h : serverBoardRead (blankBoard status) file = .ok b) :
    processed d messageLen n server status file game stream =
      (serving d messageLen n server b ⟨stream,[],0⟩ []).2.2 := by
  rw [processed, sudokuRunServer, h, checked_ok, Program.ret_bind, run_bind, serving]
  rcases run (wired d logging) (serveCommands messageLen n server b) (⟨stream,[],0⟩,[]) with
    ⟨e | s,w,log⟩
  · rfl
  · rfl

end Sessions

/-- What loading has to see to: it stays inside the arrays, and without digits
in the cells an error is left and no command is processed. -/
structure Rejecting (file : Option Text) : Prop where
  inside : ∀ status, ∃ b, serverBoardRead (blankBoard status) file = .ok b
  digits : ∀ status b, serverBoardRead (blankBoard status) file = .ok b →
    ¬ DigitCells b.board → b.status ≠ .ok ∧
      ∀ d messageLen n server game stream,
        processed d messageLen n server status file game stream = []

theorem sendBoard_total (b : Board) : ∃ sb, serverSendBoard b = .ok sb := by
  have hloop : renderLoop b 162 40 0 1 (serverFormatBoard (Vector.replicate boardSentSize 0)) =
      .ok (rendered b) := renderLoop_from b 81 0 162 rfl (by decide) _
  have hlast : (rendered b)[(⟨722,by decide⟩ : Fin boardSentSize)] = 0 := by
    rw [rendered_off_cell b _ ?_, template_get, List.getD_eq_default]
    · rw [formatLines_length]
    · intro n hn
      have hval := congrArg Fin.val hn
      have := n.isLt
      simp only [cellPos] at hval
      omega
  have hmem : (0:UInt8) ∈ (rendered b).toList := by
    rw [← hlast]
    exact Vector.mem_toList_iff.mpr (Vector.getElem_mem _)
  exact ⟨(rendered b).toList.takeWhile (· ≠ 0),by
    rw [serverSendBoard, hloop, ok_bind, cString, if_pos hmem]⟩

theorem load_status {file : Option Text} {status : BoardStatus} {b : Board}
    (h : serverBoardRead (blankBoard status) file = .ok b) : b.status = .ok := by
  rw [serverBoardRead] at h
  obtain ⟨b',-,hb⟩ := bind_eq_ok h
  cases hb
  rfl

theorem loaded_answered {file : Option Text} {status : BoardStatus} {b : Board}
    (h : serverBoardRead (blankBoard status) file = .ok b) :
    ∃ sb, serverSendBoard b = .ok sb ∧
      ∀ (d : Delivery) (messageLen : Vector UInt8 headerLen) (server : Server)
        (game : SudokuStatus), ∃ command,
          processed d messageLen 1 server status file game (text "G") = [⟨command,b,b,[sb]⟩] := by
  obtain ⟨sb,hsb⟩ := sendBoard_total b
  refine ⟨sb,hsb,?_⟩
  intro d messageLen server game
  have hnext : nextCommand (text "G") = some (Move.toCommand .get,[]) := by decide
  have hp : serverProcessCommand (server.receive (Move.toCommand .get)) b =
      .ok ⟨server.receive (Move.toCommand .get),b,[sb]⟩ := by
    have hP : ¬ 'G'.toUInt8 = 'P'.toUInt8 := by decide
    have hV : ¬ 'G'.toUInt8 = 'V'.toUInt8 := by decide
    have hR : ¬ 'G'.toUInt8 = 'R'.toUInt8 := by decide
    simp only [serverProcessCommand, receive_command, Move.toCommand, if_neg hP, if_neg hV,
      if_neg hR, if_true, hsb, ok_bind]
  obtain ⟨out,k,hserving⟩ := serving_next d messageLen server b (w := ⟨text "G",[],0⟩) hnext hp []
  refine ⟨Server.toCommand (server.receive (Move.toCommand .get)),?_⟩
  rw [processed_loaded game _ h, hserving 0, (serving_none ..).1]
  rfl

theorem blank_not_digits (status : BoardStatus) : ¬ DigitCells (blankBoard status).board := by
  intro h
  have hcell := (h 0 0).1
  simp only [blankBoard, Fin.getElem_fin, Vector.getElem_replicate] at hcell
  exact absurd hcell (by decide)

/-- Loading is as it has to be exactly on usable files. -/
theorem loading_rejects_iff (file : Option Text) : Rejecting file ↔ Usable file := by
  constructor
  · intro h
    obtain ⟨b,hb⟩ := h.inside .ok
    have hdigits : DigitCells b.board := by
      by_contra hnot
      exact (h.digits .ok b hb hnot).1 (load_status hb)
    cases file with
    | none =>
      cases hb
      exact absurd hdigits (blank_not_digits .ok)
    | some content =>
      obtain ⟨hlen,rfl⟩ := (serverBoardRead_iff _ _ _).mp hb
      exact ⟨content,rfl,hlen,hdigits⟩
  · rintro ⟨content,rfl,hlen,hdigits⟩
    constructor
    · intro status
      exact ⟨_,(serverBoardRead_iff _ _ _).mpr ⟨hlen,rfl⟩⟩
    · intro status b hb hnot
      obtain ⟨-,rfl⟩ := (serverBoardRead_iff _ _ _).mp hb
      exact absurd hdigits hnot

/-- A missing file is served: the board has no digit, and yet it is sent. -/
theorem missing_file_served :
    (∃ b sb, serverBoardRead (blankBoard .fileError) none = .ok b ∧ ¬ DigitCells b.board ∧
      serverSendBoard b = .ok sb ∧
      ∀ (d : Delivery) (messageLen : Vector UInt8 headerLen) (server : Server)
        (game : SudokuStatus), ∃ command,
          processed d messageLen 1 server .fileError none game (text "G") =
            [⟨command,b,b,[sb]⟩]) ∧
    ¬ ∀ file, Rejecting file := by
  have hread : serverBoardRead (blankBoard .fileError) none = .ok (blankBoard .ok) := rfl
  obtain ⟨sb,hsb,hanswered⟩ := loaded_answered hread
  constructor
  · exact ⟨blankBoard .ok,sb,hread,blank_not_digits .ok,hsb,hanswered⟩
  · intro hall
    have hstatus := ((hall none).digits .fileError (blankBoard .ok) hread (blank_not_digits .ok)).1
    exact hstatus rfl

end Workshop.SudokuUnusable
