import Workshop.CMemory

/-!
# The board of the sudoku server

`board` and `board_original` hold the text of the board file. Cell `(r,c)`
lies at offset `18*(r-1)+2*(c-1)`; every other byte is a separator. Row and
column arrive as `uint8_t`, and the column offset is accumulated in one.
-/

set_option autoImplicit false

namespace Workshop.SudokuBoard
open Workshop.CMemory

abbrev boardSize : ℕ := 200
def charsPerRow : ℤ := 18

inductive BoardStatus where
  | ok
  | nonModifiableValue
  | fileError
  | invalid
  deriving DecidableEq, Repr

structure Board where
  board : Vector UInt8 boardSize
  boardOriginal : Vector UInt8 boardSize
  status : BoardStatus
  deriving DecidableEq, Repr

/-- Both arrays as `sudoku_run` zeroes them. The status is indeterminate there. -/
def blankBoard (status : BoardStatus) : Board where
  board := Vector.replicate boardSize 0
  boardOriginal := Vector.replicate boardSize 0
  status := status

/-- The reading loop. `c` is a `char`, so the byte `0xFF` compares equal to `EOF`. -/
def boardReadLoop : Text → ℤ → Board → Checked Board
  | [], _, self => .ok self
  | c::rest, i, self =>
    if schar c = -1 then .ok self
    else do
      let board ← store self.board i c
      let boardOriginal ← store self.boardOriginal i c
      boardReadLoop rest (i+1) { self with board, boardOriginal }

/-- `none` is a board file which `fopen` cannot open. -/
def boardRead (self : Board) : Option Text → Checked Board
  | none => .ok { self with status := .fileError }
  | some file => do
    let self ← boardReadLoop file 0 self
    .ok { self with status := .ok }

/-- `while (j > 1) { tmp = tmp + 2; j--; }` with a `uint8_t` accumulator. -/
def columnOffset : ℕ → UInt8 → UInt8
  | 0, tmp => tmp
  | 1, tmp => tmp
  | j+2, tmp => columnOffset (j+1) (tmp+2)

def boardIndex (i j : UInt8) : ℤ :=
  charsPerRow*((i.toNat:ℤ)-1) + ((columnOffset j.toNat 0).toNat:ℤ)

def boardValueGet (self : Board) (i j : UInt8) : Checked UInt8 :=
  fetch self.board (boardIndex i j)

def boardValueGetOriginal (self : Board) (i j : UInt8) : Checked UInt8 :=
  fetch self.boardOriginal (boardIndex i j)

def boardValueSet (self : Board) (i j value : UInt8) : Checked Board := do
  let board ← store self.board (boardIndex i j) (value+48)
  .ok { self with board }

def boardPut (self : Board) (i j value : UInt8) : Checked Board := do
  let original ← boardValueGetOriginal self i j
  if schar original-48 ≠ 0 then .ok { self with status := .nonModifiableValue }
  else boardValueSet self i j value

def boardReset (self : Board) : Checked Board := do
  let original ← cString self.boardOriginal
  .ok { self with board := snprintf self.board original, status := .ok }

def cellIndex (r c : Fin 9) : Fin boardSize :=
  ⟨18*r.val+2*c.val, by have := r.isLt; have := c.isLt; show _ < 200; omega⟩

theorem cellIndex_lt (r c : Fin 9) : (cellIndex r c).val < boardSize := (cellIndex r c).isLt

def ordinal (k : Fin 9) : UInt8 := UInt8.ofNat (k.val+1)

def IsDigit (c : UInt8) : Prop := 48 ≤ c.toNat ∧ c.toNat ≤ 57

instance (c : UInt8) : Decidable (IsDigit c) := inferInstanceAs (Decidable (_ ∧ _))

def DigitCells (a : Vector UInt8 boardSize) : Prop := ∀ r c : Fin 9, IsDigit a[cellIndex r c]

instance (a : Vector UInt8 boardSize) : Decidable (DigitCells a) :=
  inferInstanceAs (Decidable (∀ _ _, _))

def shiftedDigit (i : ℕ) : UInt8 := UInt8.ofNat (49+(3*(i/18)+i/54+i%18/2)%9)

def shiftedCells : Vector UInt8 boardSize :=
  ⟨((List.range boardSize).map fun i => if i%2 = 0 then shiftedDigit i else 32).toArray,by simp⟩

def shiftedBut (r c : Fin 9) (v : UInt8) : Vector UInt8 boardSize :=
  shiftedCells.set (cellIndex r c) v (cellIndex_lt r c)

theorem shiftedCells_digits : DigitCells shiftedCells := by decide +kernel

theorem cellIndex_injective {r c r' c' : Fin 9} (h : cellIndex r c = cellIndex r' c') :
    r = r' ∧ c = c' := by
  have hv : 18*r.val+2*c.val = 18*r'.val+2*c'.val := congrArg Fin.val h
  have := c.isLt
  have := c'.isLt
  exact ⟨Fin.ext (by omega),Fin.ext (by omega)⟩

theorem boardIndex_cell (r c : Fin 9) :
    boardIndex (ordinal r) (ordinal c) = ((cellIndex r c).val:ℤ) := by
  revert r c
  decide

theorem columnOffset_toNat (j : ℕ) (tmp : UInt8) :
    (columnOffset j tmp).toNat = (tmp.toNat+2*(j-1))%256 := by
  induction j, tmp using columnOffset.induct with
  | case1 tmp => have := tmp.toNat_lt; simp [columnOffset]
  | case2 tmp => have := tmp.toNat_lt; simp [columnOffset]
  | case3 j tmp ih =>
    rw [columnOffset, ih, UInt8.toNat_add]
    have h2 : (2:UInt8).toNat = 2 := rfl
    rw [h2]
    omega

theorem boardIndex_eq (i j : UInt8) :
    boardIndex i j = 18*((i.toNat:ℤ)-1)+(((2*(j.toNat-1))%256:ℕ):ℤ) := by
  rw [boardIndex, columnOffset_toNat]
  simp [charsPerRow]

@[simp] theorem value_get_cell (self : Board) (r c : Fin 9) :
    boardValueGet self (ordinal r) (ordinal c) = .ok self.board[cellIndex r c] := by
  rw [boardValueGet, boardIndex_cell, fetch_nat]
  rfl

@[simp] theorem value_get_original_cell (self : Board) (r c : Fin 9) :
    boardValueGetOriginal self (ordinal r) (ordinal c) =
      .ok self.boardOriginal[cellIndex r c] := by
  rw [boardValueGetOriginal, boardIndex_cell, fetch_nat]
  rfl

theorem value_set_cell (self : Board) (r c : Fin 9) (value : UInt8) :
    boardValueSet self (ordinal r) (ordinal c) value =
      .ok { self with board := self.board.set (cellIndex r c) (value+48) } := by
  rw [boardValueSet, boardIndex_cell, store_nat _ _ (cellIndex r c).isLt]
  rfl

theorem schar_digit_zero {c : UInt8} : schar c-48 = 0 ↔ c = 48 := by
  constructor
  · intro h
    have hc : c.toInt8 = (48:UInt8).toInt8 := by
      apply Int8.toInt.inj
      change schar c = 48
      omega
    exact congrArg Int8.toUInt8 hc
  · rintro rfl
    rfl

theorem put_cell (self : Board) (r c : Fin 9) (value : UInt8) :
    boardPut self (ordinal r) (ordinal c) value =
      .ok (if self.boardOriginal[cellIndex r c] = 48 then
        { self with board := self.board.set (cellIndex r c) (value+48) }
      else { self with status := .nonModifiableValue }) := by
  rw [boardPut, value_get_original_cell, ok_bind, value_set_cell]
  by_cases h : self.boardOriginal[cellIndex r c] = 48
  · rw [if_neg (not_not.mpr (schar_digit_zero.mpr h)), if_pos h]
  · rw [if_pos (fun hz => h (schar_digit_zero.mp hz)), if_neg h]

end Workshop.SudokuBoard
