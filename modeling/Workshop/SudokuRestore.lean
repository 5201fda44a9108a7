import Workshop.SudokuGame

/-!
# A reset undoes every run

The operations on a board never change a byte whose original is not `'0'`. A
reset copies the original up to its NUL, and the bytes behind that are NULs
which no operation has touched.
-/

set_option autoImplicit false

namespace Workshop.SudokuRestore
open Workshop.CMemory Workshop.SudokuBoard Workshop.SudokuVerify Workshop.SudokuServer
open Workshop.SudokuLoad Workshop.SudokuGame

inductive Op where
  | put (i j value : UInt8)
  | verify
  | reset
  deriving DecidableEq, Repr

def Op.perform (self : Board) : Op → Checked Board
  | .put i j value => boardPut self i j value
  | .verify => boardVerify self
  | .reset => boardReset self

def InRange (k : UInt8) : Prop := 1 ≤ k.toNat ∧ k.toNat ≤ 9

def Op.Allowed (self : Board) : Op → Prop
  | .put i j _ => InRange i ∧ InRange j
  | .verify => DigitCells self.board
  | .reset => True

def performAll : List Op → Board → Checked Board
  | [], self => .ok self
  | op::ops, self => op.perform self >>= performAll ops

def AllowedAll : List Op → Board → Prop
  | [], _ => True
  | op::ops, self => op.Allowed self ∧ ∀ next, op.perform self = .ok next → AllowedAll ops next

structure Padded (original : Vector UInt8 boardSize) : Prop where
  terminated : 0 ∈ original.toList
  behind : ∀ k (hk : k < boardSize),
    (original.toList.takeWhile (· ≠ 0)).length < k → original[k] = 0

/-- Only the bytes with an original `'0'` may have changed. -/
structure Restorable (original : Vector UInt8 boardSize) (b : Board) : Prop where
  same : b.boardOriginal = original
  fixed : ∀ k (hk : k < boardSize), original[k] ≠ 48 → b.board[k] = original[k]

theorem ordinal_inRange {i : UInt8} (h : InRange i) : ∃ r, ordinal r = i := by
  obtain ⟨hl,hu⟩ := h
  refine ⟨⟨i.toNat-1,by omega⟩,?_⟩
  apply UInt8.toNat_inj.mp
  simp [ordinal]
  omega

section Steps
variable {original : Vector UInt8 boardSize} {self : Board}

theorem put_restorable (h : Restorable original self) (r c : Fin 9) (value : UInt8) :
    ∃ next, boardPut self (ordinal r) (ordinal c) value = .ok next ∧ Restorable original next := by
  rw [put_cell]
  refine ⟨_,rfl,?_⟩
  split
  · rename_i hfree
    refine ⟨h.same,fun k hk hne => ?_⟩
    have hcell : (cellIndex r c).val ≠ k := by
      rintro rfl
      rw [h.same] at hfree
      exact hne hfree
    rw [Vector.getElem_set_ne _ _ hcell]
    exact h.fixed k hk hne
  · exact ⟨h.same,h.fixed⟩

theorem verify_restorable (h : Restorable original self) (hd : DigitCells self.board) :
    ∃ next, boardVerify self = .ok next ∧ Restorable original next := by
  refine ⟨_,verify_digits self hd,?_,?_⟩
  · rw [flag_original]
    exact h.same
  · rw [flag_board]
    exact h.fixed

theorem reset_restored (hp : Padded original) (h : Restorable original self) :
    boardReset self = .ok ⟨original,original,.ok⟩ := by
  have hterm : Terminated self := by
    rw [Terminated, h.same]
    exact hp.terminated
  have hboard : snprintf self.board (original.toList.takeWhile (· ≠ 0)) = original := by
    apply Vector.ext
    intro k hk
    rw [snprintf_string _ _ hp.terminated k hk]
    split
    · rfl
    · have hzero := hp.behind k hk (by omega)
      exact h.fixed k hk (by rw [hzero]; decide)
  rw [resetBoard_eq hterm, resetBoard, h.same, hboard]

theorem perform_restorable (hp : Padded original) (h : Restorable original self) {op : Op}
    (hop : op.Allowed self) : ∃ next, op.perform self = .ok next ∧ Restorable original next := by
  cases op with
  | put i j value =>
    obtain ⟨r,rfl⟩ := ordinal_inRange hop.1
    obtain ⟨c,rfl⟩ := ordinal_inRange hop.2
    exact put_restorable h r c value
  | verify => exact verify_restorable h hop
  | reset => exact ⟨_,reset_restored hp h,rfl,fun _ _ _ => rfl⟩

theorem performAll_restorable (hp : Padded original) (h : Restorable original self)
    {ops : List Op} (hops : AllowedAll ops self) :
    ∃ last, performAll ops self = .ok last ∧ Restorable original last := by
  induction ops generalizing self with
  | nil => exact ⟨self,rfl,h⟩
  | cons op ops ih =>
    obtain ⟨next,hnext,hrest⟩ := perform_restorable hp h hops.1
    rw [performAll, hnext]
    exact ih hrest (hops.2 next hnext)

end Steps

theorem fileImage_padded {file : Text} (hlen : file.length ≤ 199) (hnul : (0:UInt8) ∉ file) :
    Padded (fileImage file) := by
  have hkept : (kept file).length ≤ file.length := (List.takeWhile_prefix _).length_le
  obtain ⟨hterm,hwhile⟩ := takeWhile_fileImage file (by simp only [boardSize]; omega) hnul
  refine ⟨hterm,fun k hk hlt => ?_⟩
  rw [hwhile] at hlt
  rw [fileImage_get, List.getD_eq_default _ _ hlt.le]

theorem boardRead_file (status : BoardStatus) {file : Text} (hlen : file.length ≤ 199) :
    boardRead (blankBoard status) (some file) = .ok ⟨fileImage file,fileImage file,.ok⟩ := by
  have hkept : (kept file).length ≤ file.length := (List.takeWhile_prefix _).length_le
  have hloop := boardReadLoop_eq file 0 (blankBoard status) (by simp only [boardSize]; omega)
  simp only [blankBoard, overlay_blank] at hloop
  rw [boardRead]
  change (boardReadLoop file ((0:ℕ):ℤ) _ >>= _) = _
  simp only [blankBoard, hloop, ok_bind]

/-- After any run of operations a reset leaves the board as it was read. -/
theorem reset_undoes_runs {file : Text} (hlen : file.length ≤ 199) (hnul : (0:UInt8) ∉ file)
    (status : BoardStatus) :
    ∃ b0, boardRead (blankBoard status) (some file) = .ok b0 ∧
      ∀ ops, AllowedAll ops b0 → ∃ b, performAll ops b0 = .ok b ∧
        b.boardOriginal = b0.boardOriginal ∧
        boardReset b = .ok ⟨b0.board,b0.boardOriginal,.ok⟩ := by
  have hpadded := fileImage_padded hlen hnul
  refine ⟨_,boardRead_file status hlen,fun ops hops => ?_⟩
  have hstart : Restorable (fileImage file) ⟨fileImage file,fileImage file,.ok⟩ :=
    ⟨rfl,fun _ _ _ => rfl⟩
  obtain ⟨b,hb,hrest⟩ := performAll_restorable hpadded hstart hops
  exact ⟨b,hb,hrest.same,reset_restored hpadded hrest⟩

/-- A put of 208 stores a NUL in a cell, and the reset removes it. -/
theorem reset_undoes_runs_nul :
    ∃ b0, boardRead (blankBoard .ok) (some emptyFile) = .ok b0 ∧
      ∃ b, performAll [.verify,.put 1 1 208] b0 = .ok b ∧
        boardReset b = .ok ⟨b0.board,b0.boardOriginal,.ok⟩ := by
  have hlen : emptyFile.length ≤ 199 := by decide +kernel
  obtain ⟨b0,hread,hruns⟩ := reset_undoes_runs hlen (by decide +kernel) .ok
  have hb0 : b0 = emptyBoard := Except.ok.inj (hread.symm.trans (boardRead_file .ok hlen))
  have hput : ∀ b : Board, Op.Allowed b (.put 1 1 208) := fun b =>
    ⟨⟨by decide,by decide⟩,⟨by decide,by decide⟩⟩
  have hdigits : DigitCells b0.board := hb0 ▸ emptyBoard_loaded.cells
  obtain ⟨b,hb,-,hreset⟩ := hruns [.verify,.put 1 1 208]
    ⟨hdigits,fun next _ => ⟨hput next,fun _ _ => trivial⟩⟩
  exact ⟨b0,hread,b,hb,hreset⟩

end Workshop.SudokuRestore
