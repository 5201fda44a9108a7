import Workshop.SudokuServer

/-!
# Boards loaded from a file

`board_read` copies the file into both arrays up to the byte `0xFF`, without
comparing the index with their size. On zeroed arrays the result is the file
followed by NULs; more than 200 bytes leave the arrays.
-/

set_option autoImplicit false

namespace Workshop.SudokuLoad
open Workshop.CMemory Workshop.SudokuBoard Workshop.SudokuServer

/-- The bytes the reading loop stores. -/
def kept (file : Text) : Text := file.takeWhile (fun c => schar c ≠ -1)

def overlay (a : Vector UInt8 boardSize) (i : ℕ) (l : Text) : Vector UInt8 boardSize :=
  Vector.ofFn fun k => if i ≤ k.val ∧ k.val < i+l.length then l.getD (k.val-i) 0 else a[k]

theorem overlay_get (a : Vector UInt8 boardSize) (i : ℕ) (l : Text) (k : ℕ) (hk : k < boardSize) :
    (overlay a i l)[k] = if i ≤ k ∧ k < i+l.length then l.getD (k-i) 0 else a[k] := by
  simp [overlay]

theorem overlay_nil (a : Vector UInt8 boardSize) (i : ℕ) : overlay a i [] = a := by
  ext k hk
  rw [overlay_get, if_neg (fun h => absurd h.2 (Nat.not_lt.mpr h.1))]

theorem overlay_cons (a : Vector UInt8 boardSize) (i : ℕ) (c : UInt8) (l : Text)
    (hi : i < boardSize) : overlay (a.set i c) (i+1) l = overlay a i (c::l) := by
  ext k hk
  rw [overlay_get, overlay_get, Vector.getElem_set, List.length_cons]
  rcases lt_trichotomy i k with h | rfl | h
  · obtain ⟨d,rfl⟩ : ∃ d, k = i+1+d := ⟨k-(i+1),by omega⟩
    have hd : i+1+d-i = d+1 := by omega
    rw [Nat.add_sub_cancel_left, hd, List.getD_cons_succ, if_neg h.ne]
    by_cases hl : d < l.length
    · rw [if_pos (by omega), if_pos (by omega)]
    · rw [if_neg (by omega), if_neg (by omega)]
  · rw [if_neg (by omega), if_pos rfl, if_pos (by omega), Nat.sub_self, List.getD_cons_zero]
  · rw [if_neg (by omega), if_neg h.ne', if_neg (by omega)]

theorem boardReadLoop_eq (file : Text) (i : ℕ) (self : Board)
    (h : i+(kept file).length ≤ boardSize) :
    boardReadLoop file (i:ℤ) self = .ok { self with
      board := overlay self.board i (kept file)
      boardOriginal := overlay self.boardOriginal i (kept file) } := by
  induction file generalizing i self with
  | nil => simp only [boardReadLoop, kept, List.takeWhile_nil, overlay_nil]
  | cons c rest ih =>
    rw [boardReadLoop]
    by_cases hc : schar c = -1
    · rw [if_pos hc, kept, List.takeWhile_cons_of_neg (by simpa using hc), overlay_nil,
        overlay_nil]
    · have hk : kept (c::rest) = c::kept rest := by
        rw [kept, List.takeWhile_cons_of_pos (by simpa using hc)]
        rfl
      rw [hk, List.length_cons] at h
      have hi : i < boardSize := by omega
      have hr := ih (i+1) ⟨self.board.set i c,self.boardOriginal.set i c,self.status⟩ (by omega)
      rw [if_neg hc, store_nat _ _ hi, ok_bind, store_nat _ _ hi, ok_bind, hk]
      simp only [overlay_cons _ _ _ _ hi] at hr
      exact hr

theorem boardReadLoop_fault (file : Text) (i : ℕ) (self : Board) (hi : i ≤ boardSize)
    (h : boardSize < i+(kept file).length) :
    boardReadLoop file (i:ℤ) self = .error .outOfBounds := by
  induction file generalizing i self with
  | nil => simp [kept] at h; omega
  | cons c rest ih =>
    by_cases hc : schar c = -1
    · rw [kept, List.takeWhile_cons_of_neg (by simpa using hc)] at h
      simp at h
      omega
    · have hk : kept (c::rest) = c::kept rest := by
        rw [kept, List.takeWhile_cons_of_pos (by simpa using hc)]
        rfl
      rw [hk, List.length_cons] at h
      rw [boardReadLoop, if_neg hc]
      by_cases hi' : i < boardSize
      · rw [store_nat _ _ hi', ok_bind, store_nat _ _ hi', ok_bind]
        exact ih (i+1) _ hi' (by omega)
      · rw [store, dif_neg (by simp; omega)]
        rfl

def fileImage (file : Text) : Vector UInt8 boardSize :=
  Vector.ofFn fun k => (kept file).getD k.val 0

theorem fileImage_get (file : Text) (k : ℕ) (hk : k < boardSize) :
    (fileImage file)[k] = (kept file).getD k 0 := by
  simp [fileImage]

theorem overlay_blank (file : Text) :
    overlay (Vector.replicate boardSize 0) 0 (kept file) = fileImage file := by
  ext k hk
  rw [overlay_get, fileImage_get, Vector.getElem_replicate, Nat.sub_zero]
  by_cases h : k < (kept file).length
  · rw [if_pos (by omega)]
  · rw [if_neg (by omega), List.getD_eq_default _ _ (by omega)]

/-- Loading succeeds exactly on files of at most 200 bytes before any `0xFF`. -/
theorem serverBoardRead_iff (status : BoardStatus) (file : Text) (b : Board) :
    serverBoardRead (blankBoard status) (some file) = .ok b ↔
      (kept file).length ≤ boardSize ∧ b = ⟨fileImage file,fileImage file,.ok⟩ := by
  by_cases h : (kept file).length ≤ boardSize
  · have hl := boardReadLoop_eq file 0 (blankBoard status) (by simpa using h)
    simp only [blankBoard, overlay_blank file] at hl
    have he : serverBoardRead (blankBoard status) (some file) =
        .ok ⟨fileImage file,fileImage file,.ok⟩ := by
      simp only [serverBoardRead, boardRead, blankBoard]
      rw [show ((0:ℕ):ℤ) = 0 from rfl] at hl
      rw [hl]
      rfl
    rw [he]
    simp [h, eq_comm]
  · have hl := boardReadLoop_fault file 0 (blankBoard status) (Nat.zero_le _) (by omega)
    have he : serverBoardRead (blankBoard status) (some file) = .error .outOfBounds := by
      rw [show ((0:ℕ):ℤ) = 0 from rfl] at hl
      simp only [serverBoardRead, boardRead]
      rw [hl]
      rfl
    rw [he]
    simp [h]

/-- A board the server has loaded, with digits in its 81 cells. -/
structure Loaded (file : Text) (b : Board) : Prop where
  read : ∃ status, serverBoardRead (blankBoard status) (some file) = .ok b
  cells : DigitCells b.board

theorem Loaded.eq {file : Text} {b : Board} (h : Loaded file b) :
    (kept file).length ≤ boardSize ∧ b = ⟨fileImage file,fileImage file,.ok⟩ := by
  obtain ⟨status,hr⟩ := h.read
  exact (serverBoardRead_iff status file b).mp hr

theorem Loaded.original {file : Text} {b : Board} (h : Loaded file b) :
    b.boardOriginal = b.board := by
  rw [h.eq.2]

theorem Loaded.status {file : Text} {b : Board} (h : Loaded file b) : b.status = .ok := by
  rw [h.eq.2]

theorem Loaded.inPlay {file : Text} {b : Board} (h : Loaded file b) : InPlay b where
  cells := h.cells
  original := by rw [h.original]; exact h.cells
  status := by rw [h.status]; exact fun h => BoardStatus.noConfusion h

def emptyFile : Text := (List.replicate 9 (text "0 0 0 0 0 0 0 0 0\n")).flatten

def emptyBoard : Board := ⟨fileImage emptyFile,fileImage emptyFile,.ok⟩

theorem emptyBoard_loaded : Loaded emptyFile emptyBoard where
  read := ⟨.ok,(serverBoardRead_iff _ _ _).mpr ⟨by decide +kernel,rfl⟩⟩
  cells := by decide +kernel

end Workshop.SudokuLoad
