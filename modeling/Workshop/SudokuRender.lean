import Workshop.SudokuBoard

/-!
# The rendering sent to the client

The template of nineteen lines fills the allocated buffer exactly. One loop
then writes the cells which are not `'0'`, moving its output index by four
with an extra jump after every ninth cell.
-/

set_option autoImplicit false

namespace Workshop.SudokuRender
open Workshop.CMemory Workshop.SudokuBoard

abbrev boardSentSize : ℕ := 723
def chPerRow : ℕ := 38

def boardRowSepCell : Text := text "U===========U===========U===========U\n"
def boardRowSep : Text := text "U---+---+---U---+---+---U---+---+---U\n"
def boardRow : Text := text "U   |   |   U   |   |   U   |   |   U\n"

def formatLines : List Text :=
  [boardRowSepCell, boardRow, boardRowSep, boardRow, boardRowSep, boardRow,
   boardRowSepCell, boardRow, boardRowSep, boardRow, boardRowSep, boardRow,
   boardRowSepCell, boardRow, boardRowSep, boardRow, boardRowSep, boardRow,
   boardRowSepCell]

def serverFormatBoard (board : Vector UInt8 boardSentSize) : Vector UInt8 boardSentSize :=
  snprintf board formatLines.flatten

/-- `if ((aux = board_value_get(board, k, j)) != '0') sb[i] = aux;` -/
def renderCell (board : Board) (i j k : ℕ) (sb : Vector UInt8 boardSentSize) :
    Checked (Vector UInt8 boardSentSize) := do
  let aux ← boardValueGet board (UInt8.ofNat k) (UInt8.ofNat j)
  if aux ≠ 48 then store sb i aux else .ok sb

/-- The loop `for (i = 40; i <= 680; i = i + 4)`. Every round moves `i` by at
least four, so the exit test fails before 162 rounds are made. -/
def renderLoop (board : Board) :
    (rounds i j k : ℕ) → Vector UInt8 boardSentSize → Checked (Vector UInt8 boardSentSize)
  | 0, _, _, _, sb => .ok sb
  | rounds+1, i, j, k, sb =>
    if i ≤ 680 then do
      let sb ← renderCell board i (j+1) k sb
      if j+1 = 9 then renderLoop board rounds (i+2+chPerRow+4) 0 (k+1) sb
      else renderLoop board rounds (i+4) (j+1) k sb
    else .ok sb

/-- The string which `server_send_board` hands to the protocol. The content
of the fresh buffer is irrelevant, the template overwrites all of it. -/
def serverSendBoard (board : Board) : Checked Text := do
  let sb := serverFormatBoard (Vector.replicate boardSentSize 0)
  let sb ← renderLoop board 162 40 0 1 sb
  cString sb

def rowOf (n : Fin 81) : Fin 9 := ⟨n.val/9, by have := n.isLt; omega⟩
def colOf (n : Fin 81) : Fin 9 := ⟨n.val%9, by omega⟩

def cellPos (n : Fin 81) : Fin boardSentSize :=
  ⟨40+76*(n.val/9)+4*(n.val%9), by have := n.isLt; show _ < 723; omega⟩

def drawCell (board : Board) (sb : Vector UInt8 boardSentSize) (n : Fin 81) :
    Vector UInt8 boardSentSize :=
  if board.board[cellIndex (rowOf n) (colOf n)] ≠ 48 then
    sb.set (cellPos n) board.board[cellIndex (rowOf n) (colOf n)]
  else sb

theorem cellPos_injective : Function.Injective cellPos := by
  intro n m h
  have hv : 40+76*(n.val/9)+4*(n.val%9) = 40+76*(m.val/9)+4*(m.val%9) := congrArg Fin.val h
  exact Fin.ext (by omega)

theorem renderLoop_cell (board : Board) (rounds : ℕ) (n : Fin 81)
    (sb : Vector UInt8 boardSentSize) :
    renderLoop board (rounds+1) (40+76*(n.val/9)+4*(n.val%9)) (n.val%9) (n.val/9+1) sb =
      renderLoop board rounds (40+76*((n.val+1)/9)+4*((n.val+1)%9)) ((n.val+1)%9)
        ((n.val+1)/9+1) (drawCell board sb n) := by
  have hn := n.isLt
  have hget : boardValueGet board (UInt8.ofNat (n.val/9+1)) (UInt8.ofNat (n.val%9+1)) =
      .ok board.board[cellIndex (rowOf n) (colOf n)] := value_get_cell board (rowOf n) (colOf n)
  have hdraw : renderCell board (40+76*(n.val/9)+4*(n.val%9)) (n.val%9+1) (n.val/9+1) sb =
      .ok (drawCell board sb n) := by
    rw [renderCell, hget, ok_bind, drawCell]
    split
    · exact store_nat sb _ (cellPos n).isLt _
    · rfl
  rw [renderLoop, if_pos (by omega), hdraw, ok_bind]
  by_cases h9 : n.val%9+1 = 9
  · rw [if_pos h9]
    congr 1
    · simp only [chPerRow]; omega
    · omega
    · omega
  · rw [if_neg h9]
    congr 1 <;> omega

theorem renderLoop_from (board : Board) (m n rounds : ℕ) (h : n+m = 81) (hr : m < rounds)
    (sb : Vector UInt8 boardSentSize) :
    renderLoop board rounds (40+76*(n/9)+4*(n%9)) (n%9) (n/9+1) sb =
      .ok (((List.finRange 81).drop n).foldl (drawCell board) sb) := by
  induction m generalizing n rounds sb with
  | zero =>
    obtain rfl : n = 81 := by omega
    obtain ⟨rounds,rfl⟩ : ∃ k, rounds = k+1 := ⟨rounds-1,by omega⟩
    rw [renderLoop, if_neg (by decide), List.drop_of_length_le (by simp)]
    rfl
  | succ m ih =>
    have hn : n < 81 := by omega
    obtain ⟨rounds,rfl⟩ : ∃ k, rounds = k+1 := ⟨rounds-1,by omega⟩
    have hd : (List.finRange 81).drop n = ⟨n,hn⟩::(List.finRange 81).drop (n+1) := by
      rw [List.drop_eq_getElem_cons (by simpa using hn)]
      simp
    rw [hd, List.foldl_cons]
    exact (renderLoop_cell board rounds ⟨n,hn⟩ sb).trans (ih (n+1) rounds (by omega) (by omega) _)

def rendered (board : Board) : Vector UInt8 boardSentSize :=
  (List.finRange 81).foldl (drawCell board) (serverFormatBoard (Vector.replicate boardSentSize 0))

theorem drawCell_get_ne (board : Board) (sb : Vector UInt8 boardSentSize) (n : Fin 81)
    (k : Fin boardSentSize) (h : cellPos n ≠ k) : (drawCell board sb n)[k] = sb[k] := by
  unfold drawCell
  split
  · have hv : (cellPos n).val ≠ k.val := fun hv => h (Fin.ext hv)
    simp [hv]
  · rfl

theorem drawCell_get (board : Board) (sb : Vector UInt8 boardSentSize) (n : Fin 81) :
    (drawCell board sb n)[cellPos n] =
      if board.board[cellIndex (rowOf n) (colOf n)] ≠ 48 then
        board.board[cellIndex (rowOf n) (colOf n)] else sb[cellPos n] := by
  unfold drawCell
  split <;> simp

theorem draw_get_ne (board : Board) (ns : List (Fin 81)) (sb : Vector UInt8 boardSentSize)
    (k : Fin boardSentSize) (h : ∀ n ∈ ns, cellPos n ≠ k) :
    (ns.foldl (drawCell board) sb)[k] = sb[k] := by
  induction ns generalizing sb with
  | nil => rfl
  | cons n ns ih =>
    rw [List.foldl_cons, ih _ (fun m hm => h m (by simp [hm])),
      drawCell_get_ne board sb n k (h n (by simp))]

theorem draw_get (board : Board) (ns : List (Fin 81)) (hn : ns.Nodup)
    (sb : Vector UInt8 boardSentSize) (n : Fin 81) (h : n ∈ ns) :
    (ns.foldl (drawCell board) sb)[cellPos n] =
      if board.board[cellIndex (rowOf n) (colOf n)] ≠ 48 then
        board.board[cellIndex (rowOf n) (colOf n)] else sb[cellPos n] := by
  induction ns generalizing sb with
  | nil => simp at h
  | cons m ns ih =>
    obtain ⟨hm,hr⟩ := List.nodup_cons.mp hn
    rw [List.foldl_cons]
    by_cases hnm : n = m
    · subst hnm
      have hoff : ∀ p ∈ ns, cellPos p ≠ cellPos n := by
        rintro p hp he
        exact hm (cellPos_injective he ▸ hp)
      rw [draw_get_ne board ns _ _ hoff, drawCell_get]
    · have hmem : n ∈ ns := (List.mem_cons.mp h).resolve_left hnm
      rw [ih hr _ hmem, drawCell_get_ne board sb m _ (fun he => hnm (cellPos_injective he).symm)]

def template : Vector UInt8 boardSentSize := serverFormatBoard (Vector.replicate boardSentSize 0)

theorem mem_formatLines {l : Text} (h : l ∈ formatLines) :
    l = boardRowSepCell ∨ l = boardRow ∨ l = boardRowSep := by
  simp only [formatLines, List.mem_cons, List.not_mem_nil, or_false] at h
  tauto

theorem line_length {l : Text} (h : l ∈ formatLines) : l.length = chPerRow := by
  rcases mem_formatLines h with rfl | rfl | rfl <;> rfl

theorem line_nonzero {l : Text} (h : l ∈ formatLines) : ∀ c ∈ l, c ≠ 0 := by
  rcases mem_formatLines h with rfl | rfl | rfl <;> decide +kernel

theorem formatLines_length : formatLines.flatten.length = 722 := by
  have hm : formatLines.map List.length = List.replicate 19 chPerRow := by
    rw [List.map_congr_left (fun l hl => line_length hl), List.map_const']
    rfl
  rw [List.length_flatten, hm]
  rfl

theorem flatten_getD {w : ℕ} (ls : List Text) (hw : ∀ l ∈ ls, l.length = w)
    (a b : ℕ) (hb : b < w) : ls.flatten.getD (w*a+b) 0 = (ls.getD a []).getD b 0 := by
  induction ls generalizing a with
  | nil => simp
  | cons l ls ih =>
    have hl : l.length = w := hw l (by simp)
    cases a with
    | zero =>
      rw [List.flatten_cons, List.getD_append _ _ _ _ (by omega)]
      simp
    | succ a =>
      have he : w*(a+1)+b-l.length = w*a+b := by rw [hl, Nat.mul_succ]; omega
      rw [List.flatten_cons, List.getD_append_right _ _ _ _ (by rw [hl, Nat.mul_succ]; omega), he,
        ih (fun l hl => hw l (by simp [hl]))]
      rfl

theorem template_get (k : Fin boardSentSize) : template[k] = formatLines.flatten.getD k 0 := by
  have hm : min formatLines.flatten.length (boardSentSize-1) = 722 := by
    rw [formatLines_length]
    rfl
  rw [template, serverFormatBoard, Fin.getElem_fin, snprintf_get, hm]
  split
  · rfl
  · rw [List.getD_eq_default _ _ (by rw [formatLines_length]; omega)]
    simp

theorem row_line (r : Fin 9) : formatLines.getD (2*r.val+1) [] = boardRow := by
  fin_cases r <;> rfl

theorem row_blank (c : Fin 9) : boardRow.getD (2+4*c.val) 0 = 32 := by
  revert c
  decide

theorem template_cell (n : Fin 81) : template[cellPos n] = 32 := by
  have hpos : (cellPos n).val = chPerRow*(2*(rowOf n).val+1)+(2+4*(colOf n).val) := by
    simp only [cellPos, rowOf, colOf, chPerRow]
    omega
  have hc : 2+4*(colOf n).val < chPerRow := by
    have := (colOf n).isLt
    simp only [chPerRow]
    omega
  rw [template_get, hpos, flatten_getD formatLines (fun l hl => line_length hl) _ _ hc, row_line]
  exact row_blank (colOf n)

theorem formatLines_nonzero {c : UInt8} (h : c ∈ formatLines.flatten) : c ≠ 0 := by
  obtain ⟨l,hl,hc⟩ := List.mem_flatten.mp h
  exact line_nonzero hl c hc

theorem rendered_cell (board : Board) (n : Fin 81) :
    (rendered board)[cellPos n] = if board.board[cellIndex (rowOf n) (colOf n)] ≠ 48 then
      board.board[cellIndex (rowOf n) (colOf n)] else 32 := by
  rw [rendered, draw_get board _ (List.nodup_finRange 81) _ n (List.mem_finRange n)]
  split
  · rfl
  · exact template_cell n

theorem rendered_off_cell (board : Board) (k : Fin boardSentSize) (h : ∀ n, cellPos n ≠ k) :
    (rendered board)[k] = template[k] :=
  draw_get_ne board _ _ k fun n _ => h n

theorem rendered_zero_iff (board : Board) (hd : DigitCells board.board) (k : Fin boardSentSize) :
    (rendered board)[k] = 0 ↔ k.val = 722 := by
  have hk : k.val < 723 := k.isLt
  by_cases h : ∃ n, cellPos n = k
  · obtain ⟨n,rfl⟩ := h
    have hc := (hd (rowOf n) (colOf n)).1
    have hlt : (cellPos n).val ≠ 722 := by
      have := n.isLt
      simp only [cellPos]
      omega
    rw [rendered_cell]
    generalize board.board[cellIndex (rowOf n) (colOf n)] = c at hc
    simp only [hlt, iff_false]
    split
    · rintro rfl
      simp at hc
    · decide
  · rw [rendered_off_cell board k (fun n hn => h ⟨n,hn⟩), template_get]
    constructor
    · intro hz
      by_contra hne
      have hl : k.val < formatLines.flatten.length := by rw [formatLines_length]; omega
      rw [List.getD_eq_getElem _ _ hl] at hz
      exact formatLines_nonzero (List.getElem_mem hl) hz
    · intro hkv
      rw [List.getD_eq_default _ _ (by rw [formatLines_length]; omega)]

def rendering (board : Board) : Text := (rendered board).toList.take 722

theorem rendering_length (board : Board) : (rendering board).length = 722 := by
  rw [rendering, List.length_take, Vector.length_toList]
  rfl

theorem rendering_nonzero (board : Board) (hd : DigitCells board.board) :
    ∀ c ∈ rendering board, c ≠ 0 := by
  intro c hc
  obtain ⟨i,hi,rfl⟩ := List.getElem_of_mem hc
  rw [rendering_length] at hi
  intro hz
  have hk := (rendered_zero_iff board hd ⟨i,by show i < 723; omega⟩).mp (by
    simpa [rendering] using hz)
  exact absurd hk (by simp only; omega)

/-- The loop ends, no write leaves the buffer, and the terminator survives. -/
theorem sendBoard_eq (board : Board) (hd : DigitCells board.board) :
    serverSendBoard board = .ok (rendering board) := by
  have hloop : renderLoop board 162 40 0 1 (serverFormatBoard (Vector.replicate boardSentSize 0)) =
      .ok (rendered board) := renderLoop_from board 81 0 162 rfl (by decide) _
  have hlast : (rendered board).toList.drop 722 = [0] := by
    have hz := (rendered_zero_iff board hd ⟨722,by decide⟩).mpr rfl
    rw [List.drop_eq_getElem_cons (by simp)]
    simpa using hz
  have hsplit : (rendered board).toList = rendering board ++ [0] := by
    rw [rendering, ← hlast, List.take_append_drop]
  have hall := rendering_nonzero board hd
  rw [serverSendBoard, hloop, ok_bind, cString, hsplit, if_pos (by simp),
    List.takeWhile_append_of_pos (by simpa using hall)]
  simp

theorem serverFormatBoard_eq (buf : Vector UInt8 boardSentSize) :
    serverFormatBoard buf = template := by
  have hm : min formatLines.flatten.length (boardSentSize-1) = 722 := by
    rw [formatLines_length]
    rfl
  apply Vector.ext
  intro i hi
  rw [template, serverFormatBoard, serverFormatBoard, snprintf_get, snprintf_get, hm]
  have hi' : i < 723 := hi
  split
  · rfl
  · rw [if_pos (by omega), if_pos (by omega)]

theorem rendering_get (board : Board) {k : ℕ} (hk : k < 722) :
    (rendering board).getD k 0 = (rendered board)[(⟨k,by show k < 723; omega⟩ : Fin boardSentSize)] := by
  have hlen : k < (rendering board).length := by rw [rendering_length]; exact hk
  rw [List.getD_eq_getElem _ _ hlen]
  simp [rendering]

def cellPlace (r c : Fin 9) : ℕ := 38*(2*r.val+1)+2+4*c.val

theorem cellPlace_pos (r c : Fin 9) :
    ∃ n, (cellPos n).val = cellPlace r c ∧ rowOf n = r ∧ colOf n = c := by
  have := r.isLt
  have := c.isLt
  refine ⟨⟨9*r.val+c.val,by omega⟩,?_,?_,?_⟩
  · simp only [cellPos, cellPlace]
    omega
  · apply Fin.ext
    simp only [rowOf]
    omega
  · apply Fin.ext
    simp only [colOf]
    omega

theorem cellPos_place (n : Fin 81) : (cellPos n).val = cellPlace (rowOf n) (colOf n) := by
  simp only [cellPos, cellPlace, rowOf, colOf]
  omega

theorem cellPlace_lt (r c : Fin 9) : cellPlace r c < 722 := by
  have := r.isLt
  have := c.isLt
  simp only [cellPlace]
  omega

theorem rendering_cell (board : Board) (r c : Fin 9) :
    (rendering board).getD (cellPlace r c) 0 =
      if getElem board.board (cellIndex r c) (cellIndex_lt r c) = 48 then 32
        else getElem board.board (cellIndex r c) (cellIndex_lt r c) := by
  obtain ⟨n,hn,rfl,rfl⟩ := cellPlace_pos r c
  have hpos : (⟨cellPlace (rowOf n) (colOf n),(cellPlace_lt _ _).trans (by decide)⟩ :
      Fin boardSentSize) = cellPos n := Fin.ext hn.symm
  rw [rendering_get board (cellPlace_lt _ _), hpos, rendered_cell, ite_not]

/-- The string has all digits at their places, blanks for the zeros, and the
template everywhere else. -/
theorem rendering_exact (board : Board) (hd : DigitCells board.board) :
    ∃ sb, serverSendBoard board = .ok sb ∧ sb.length = 722 ∧ (0:UInt8) ∉ sb ∧
      (∀ r c, sb.getD (cellPlace r c) 0 =
        if getElem board.board (cellIndex r c) (cellIndex_lt r c) = 48 then 32
          else getElem board.board (cellIndex r c) (cellIndex_lt r c)) ∧
      (∀ k (hk : k < 722), (∀ r c, k ≠ cellPlace r c) → ∀ buf : Vector UInt8 boardSentSize,
        sb.getD k 0 = (serverFormatBoard buf)[(⟨k,by show k < 723; omega⟩ : Fin boardSentSize)]) ∧
      ∀ board' : Board, DigitCells board'.board → serverSendBoard board' = .ok sb →
        ∀ r c : Fin 9, getElem board'.board (cellIndex r c) (cellIndex_lt r c) =
          getElem board.board (cellIndex r c) (cellIndex_lt r c) := by
  refine ⟨rendering board,sendBoard_eq board hd,rendering_length board,?_,rendering_cell board,
    ?_,?_⟩
  · intro h0
    exact rendering_nonzero board hd 0 h0 rfl
  · intro k hk hoff buf
    have hne : ∀ n, cellPos n ≠ ⟨k,by show k < 723; omega⟩ := by
      intro n hn
      exact hoff (rowOf n) (colOf n) ((congrArg Fin.val hn).symm.trans (cellPos_place n))
    rw [rendering_get board hk, rendered_off_cell board _ hne, serverFormatBoard_eq]
  · intro board' hd' hsame r c
    rw [sendBoard_eq board' hd'] at hsame
    have hcell := rendering_cell board' r c
    rw [Except.ok.inj hsame, rendering_cell board r c] at hcell
    have hr := (hd r c).1
    have hr' := (hd' r c).1
    split at hcell <;> split at hcell
    · rename_i h h'
      rw [h, h']
    · rw [← hcell] at hr'
      exact absurd hr' (by decide)
    · rw [hcell] at hr
      exact absurd hr (by decide)
    · exact hcell.symm

theorem rendering_exact_shifted :
    ∃ sb, serverSendBoard ⟨shiftedBut 4 7 48,shiftedCells,.ok⟩ = .ok sb ∧
      sb.length = 722 ∧ sb.getD (cellPlace 4 7) 0 = 32 ∧ sb.getD (cellPlace 4 6) 0 = 50 ∧
      sb.getD (cellPlace 8 8) 0 = 56 := by
  have hdigits : DigitCells (shiftedBut 4 7 48) := by decide +kernel
  obtain ⟨sb,hs,hlen,-,hcell,-⟩ := rendering_exact ⟨shiftedBut 4 7 48,shiftedCells,.ok⟩ hdigits
  refine ⟨sb,hs,hlen,?_,?_,?_⟩
  · rw [hcell 4 7]
    decide +kernel
  · rw [hcell 4 6]
    decide +kernel
  · rw [hcell 8 8]
    decide +kernel

end Workshop.SudokuRender
