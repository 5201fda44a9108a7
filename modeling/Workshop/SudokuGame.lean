import Workshop.SudokuLoad

/-!
# The server refines an abstract game

The abstract game is a grid of originals and a grid of current digits. A put
writes a free cell, a reset restores the originals, and the other two moves
change nothing. The text buffer simulates it: cell offsets do not alias, and
the string copy of a reset reaches every cell and nothing behind the file.
-/

set_option autoImplicit false

namespace Workshop.SudokuGame
open Workshop.CMemory Workshop.SudokuBoard Workshop.SudokuGrid Workshop.SudokuVerify
open Workshop.SudokuRender Workshop.SudokuServer Workshop.SudokuLoad

structure Game where
  original : Grid
  current : Grid

def Game.play (g : Game) : Move → Game
  | .put r c v =>
    if g.original r c = 0 then
      { g with current := fun i j => if i = r ∧ j = c then v.val else g.current i j }
    else g
  | .verify => g
  | .reset => { g with current := g.original }
  | .get => g

def Game.playAll (g : Game) (ms : List Move) : Game := ms.foldl Game.play g

def lastPut (r c : Fin 9) : List Move → Option (Fin 10)
  | [] => none
  | .put i j v::older => if i = r ∧ j = c then some v else lastPut r c older
  | .verify::older => lastPut r c older
  | .reset::_ => none
  | .get::older => lastPut r c older

theorem playAll_original (g : Game) (ms : List Move) : (g.playAll ms).original = g.original := by
  induction ms generalizing g with
  | nil => rfl
  | cons m ms ih =>
    refine (ih (g.play m)).trans ?_
    cases m with
    | put r c v => simp only [Game.play]; split <;> rfl
    | verify => rfl
    | reset => rfl
    | get => rfl

theorem play_put_current (g : Game) (i j : Fin 9) (v : Fin 10) (r c : Fin 9) :
    (g.play (.put i j v)).current r c =
      if g.original i j = 0 ∧ r = i ∧ c = j then v.val else g.current r c := by
  by_cases hz : g.original i j = 0 <;> simp [Game.play, hz]

theorem playAll_current (g : Game) (hg : g.current = g.original) (ms : List Move) (r c : Fin 9) :
    (g.playAll ms).current r c = if g.original r c ≠ 0 then g.original r c
      else ((lastPut r c ms.reverse).getD 0).val := by
  induction ms using List.reverseRecOn with
  | nil => by_cases h : g.original r c = 0 <;> simp [Game.playAll, lastPut, hg, h]
  | append_singleton ms m ih =>
    have ho := playAll_original g ms
    rw [Game.playAll, List.foldl_append, List.foldl_cons, List.foldl_nil, List.reverse_append,
      List.reverse_singleton, List.singleton_append]
    change ((g.playAll ms).play m).current r c = _
    cases m with
    | put i j v =>
      rw [play_put_current, ho, ih, lastPut]
      by_cases hp : i = r ∧ j = c
      · obtain ⟨rfl,rfl⟩ := hp
        by_cases hz : g.original i j = 0 <;> simp [hz]
      · rw [if_neg (fun h => hp ⟨h.2.1.symm,h.2.2.symm⟩), if_neg hp]
    | verify => exact ih
    | reset =>
      simp only [Game.play, lastPut, ho]
      by_cases h : g.original r c = 0 <;> simp [h]
    | get => exact ih

def gameOf (b : Board) : Game := ⟨gridOf b.boardOriginal,gridOf b.board⟩

/-- What a reset relies on: the original is terminated behind the last cell. -/
structure Resettable (b : Board) : Prop where
  terminated : Terminated b
  reach : ∀ r c, (cellIndex r c).val ≤ (b.boardOriginal.toList.takeWhile (· ≠ 0)).length

theorem digit_zero {c : UInt8} (h : IsDigit c) : c = 48 ↔ c.toNat-48 = 0 := by
  obtain ⟨hl,hu⟩ := h
  constructor
  · rintro rfl
    rfl
  · intro hz
    exact UInt8.toNat_inj.mp (by simp; omega)

theorem digit_ext {a b : UInt8} (ha : IsDigit a) (hb : IsDigit b)
    (h : a.toNat-48 = b.toNat-48) : a = b :=
  UInt8.toNat_inj.mp (by have := ha.1; have := hb.1; omega)

theorem digitChar_toNat (v : Fin 10) : (digitChar v).toNat-48 = v.val := by
  revert v
  decide

theorem gridOf_set (a : Vector UInt8 boardSize) (r c : Fin 9) (v : Fin 10) :
    gridOf (a.set (cellIndex r c) (digitChar v) (cellIndex_lt r c)) =
      fun i j => if i = r ∧ j = c then v.val else gridOf a i j := by
  funext i j
  by_cases h : i = r ∧ j = c
  · obtain ⟨rfl,rfl⟩ := h
    simp [gridOf, digitChar_toNat]
  · have hv : ¬ (cellIndex r c).val = (cellIndex i j).val := by
      intro hv
      obtain ⟨rfl,rfl⟩ := cellIndex_injective (Fin.ext hv)
      exact h ⟨rfl,rfl⟩
    simp [gridOf, hv, h]

/-- Simulation of one move. -/
theorem serveMove_play (b : Board) (m : Move) (h : InPlay b)
    (hr : m = .reset → Resettable b) : gameOf (serveMove b m).1 = (gameOf b).play m := by
  rw [gameOf, serveMove_board, serveMove_original]
  cases m with
  | put r c v =>
    have hz := digit_zero (h.original r c)
    have hp : (gameOf b).play (.put r c v) = if b.boardOriginal[cellIndex r c].toNat-48 = 0 then
        ⟨gridOf b.boardOriginal,fun i j => if i = r ∧ j = c then v.val else gridOf b.board i j⟩
        else gameOf b := rfl
    rw [hp, moveCells]
    by_cases h0 : b.boardOriginal[cellIndex r c] = 48
    · rw [if_pos h0, if_pos (hz.mp h0), gridOf_set]
    · rw [if_neg h0, if_neg (fun hg => h0 (hz.mpr hg))]
      rfl
  | verify => rfl
  | reset =>
    obtain ⟨ht,hl⟩ := hr rfl
    have hg : gridOf (moveCells b.boardOriginal b.board .reset) = gridOf b.boardOriginal := by
      funext r c
      have hget := snprintf_string b.board b.boardOriginal ht _ (cellIndex r c).isLt
      rw [if_pos (hl r c)] at hget
      exact congrArg (fun x : UInt8 => x.toNat-48) hget
    rw [hg]
    rfl
  | get => rfl

theorem boardAfter_play (b : Board) (ms : List Move) (h : InPlay b) (hr : Resettable b) :
    gameOf (boardAfter b ms) = (gameOf b).playAll ms ∧ InPlay (boardAfter b ms) := by
  induction ms generalizing b with
  | nil => exact ⟨rfl,h⟩
  | cons m ms ih =>
    have hr' : Resettable (serveMove b m).1 := by
      refine ⟨?_,?_⟩
      · rw [Terminated, serveMove_original]
        exact hr.terminated
      · rw [serveMove_original]
        exact hr.reach
    have hp := ih (serveMove b m).1 (serveMove_inPlay b m h fun _ => hr.terminated) hr'
    rw [serveMove_play b m h fun _ => hr] at hp
    exact hp

def OffCell (k : Fin boardSize) : Prop := ∀ r c, cellIndex r c ≠ k

theorem boardAfter_off_cell (b : Board) (ms : List Move) (ht : Terminated b)
    (hb : ∀ k, OffCell k → getElem b.board k k.isLt = getElem b.boardOriginal k k.isLt)
    (k : Fin boardSize) (hk : OffCell k) :
    getElem (boardAfter b ms).board k k.isLt = getElem b.boardOriginal k k.isLt := by
  induction ms generalizing b with
  | nil => exact hb k hk
  | cons m ms ih =>
    have ho := serveMove_original b m
    refine (ih (serveMove b m).1 (by rw [Terminated, ho]; exact ht) ?_).trans (by rw [ho])
    intro i hi
    rw [ho, serveMove_board]
    cases m with
    | put r c v =>
      simp only [moveCells]
      split
      · have hne : (cellIndex r c).val ≠ i.val := fun hv => hi r c (Fin.ext hv)
        rw [Fin.getElem_fin, Vector.getElem_set, if_neg hne]
        exact hb i hi
      · exact hb i hi
    | verify => exact hb i hi
    | reset =>
      rw [Fin.getElem_fin, moveCells, snprintf_string _ _ ht _ i.isLt]
      split
      · rfl
      · exact hb i hi
    | get => exact hb i hi

theorem takeWhile_fileImage (file : Text) (hl : (kept file).length < boardSize)
    (hn : (0:UInt8) ∉ file) :
    Terminated ⟨fileImage file,fileImage file,.ok⟩ ∧
      (fileImage file).toList.takeWhile (· ≠ 0) = kept file := by
  have hs : (fileImage file).toList =
      kept file ++ List.replicate (boardSize-(kept file).length) 0 := by
    apply List.ext_getElem
    · simp
      omega
    · intro k h1 h2
      have hk : k < boardSize := by simpa using h1
      rw [Vector.getElem_toList, fileImage_get, List.getElem_append]
      split
      · next h => rw [List.getD_eq_getElem _ _ h]
      · next h => rw [List.getD_eq_default _ _ (by omega), List.getElem_replicate]
  have hz : ∀ c ∈ kept file, c ≠ 0 := fun c hc h0 =>
    hn (h0 ▸ (List.takeWhile_prefix _).subset hc)
  obtain ⟨d,hd⟩ : ∃ d, boardSize-(kept file).length = d+1 :=
    ⟨boardSize-(kept file).length-1,by omega⟩
  refine ⟨?_,?_⟩
  · rw [Terminated, hs, hd]
    simp
  · rw [hs, hd, List.takeWhile_append_of_pos (by simpa using hz), List.replicate_succ]
    simp

theorem loaded_resettable {file : Text} {b : Board} (h : Loaded file b)
    (hl : file.length < boardSize) (hn : (0:UInt8) ∉ file) : Resettable b := by
  have hk : (kept file).length ≤ file.length := (List.takeWhile_prefix _).length_le
  obtain ⟨ht,hs⟩ := takeWhile_fileImage file (by omega) hn
  have hc := h.cells
  rw [h.eq.2] at hc ⊢
  refine ⟨ht,fun r c => ?_⟩
  rw [hs]
  by_contra hlt
  have hd := (hc r c).1
  rw [Fin.getElem_fin, fileImage_get, List.getD_eq_default _ _ (by omega)] at hd
  simp at hd

def AnsweredByBoard (st : Step) : Prop := ∃ sb, serverSendBoard st.after = .ok sb ∧ st.sent = [sb]

def AnsweredAs (original : Vector UInt8 boardSize) : Move → Step → Prop
  | .put r c _, st =>
    if getElem original (cellIndex r c) (cellIndex_lt r c) ≠ 48 then
      st.sent = [msgNonModifiableCell]
    else AnsweredByBoard st
  | .verify, _ => True
  | .reset, st => AnsweredByBoard st
  | .get, st => AnsweredByBoard st

theorem serveMove_answer (b : Board) (m : Move) (h : InPlay b)
    (ht : m = .reset → Terminated b) (c : Command) :
    AnsweredAs b.boardOriginal m ⟨c,b,(serveMove b m).1,[(serveMove b m).2]⟩ := by
  have hp := serveMove_inPlay b m h ht
  have hs := sendBoard_eq _ hp.cells
  cases m with
  | put r c v =>
    simp only [AnsweredAs]
    by_cases h0 : b.boardOriginal[cellIndex r c] = 48
    · rw [if_neg (not_not.mpr h0)]
      simp only [serveMove, if_pos h0] at hs ⊢
      exact ⟨_,hs,rfl⟩
    · rw [if_pos h0]
      simp only [serveMove, if_neg h0]
  | verify => trivial
  | reset =>
    simp only [serveMove] at hs ⊢
    exact ⟨_,hs,rfl⟩
  | get =>
    simp only [serveMove] at hs ⊢
    exact ⟨_,hs,rfl⟩

theorem serveMoves_answers (b : Board) (ms : List Move) (h : InPlay b) (ht : Terminated b) :
    List.Forall₂ (AnsweredAs b.boardOriginal) ms (serveMoves b ms) := by
  induction ms generalizing b with
  | nil => exact .nil
  | cons m ms ih =>
    have hrest := ih (serveMove b m).1 (serveMove_inPlay b m h fun _ => ht)
      (by rw [Terminated, serveMove_original]; exact ht)
    rw [serveMove_original] at hrest
    exact .cons (serveMove_answer b m h (fun _ => ht) _) hrest

/-- The refinement: over any run of moves the cells are those of the abstract
game, nothing else in the buffers moves, and only the original digit of its
cell decides how a put is answered. -/
theorem server_refines_game (file : Text) (hlen : file.length ≤ 199) (hnul : (0:UInt8) ∉ file)
    (b0 : Board) (hload : Loaded file b0) (s : Server) (ms : List Move) :
    ∃ steps, serverRun s b0 (ms.map Move.toCommand) = .ok steps ∧
      (∀ r c, (finalBoard b0 steps).board[cellIndex r c] =
        if b0.boardOriginal[cellIndex r c] ≠ 48 then b0.boardOriginal[cellIndex r c]
        else digitChar ((lastPut r c ms.reverse).getD 0)) ∧
      (finalBoard b0 steps).boardOriginal = b0.boardOriginal ∧
      (∀ k, OffCell k → (finalBoard b0 steps).board[k] = b0.board[k]) ∧
      List.Forall₂ (AnsweredAs b0.boardOriginal) ms steps := by
  have hp := hload.inPlay
  have hr := loaded_resettable hload (show file.length < 200 by omega) hnul
  obtain ⟨hplay,hin⟩ := boardAfter_play b0 ms hp hr
  have hgame : (gameOf b0).current = (gameOf b0).original := by
    simp only [gameOf, hload.original]
  refine ⟨serveMoves b0 ms,(run_moves s b0 ms hp).1 fun _ => hr.terminated,?_,?_,?_,
    serveMoves_answers b0 ms hp hr.terminated⟩ <;> rw [finalBoard_serveMoves]
  · intro r c
    have hz := digit_zero (hp.original r c)
    have hcell := congrArg (fun g : Game => g.current r c) hplay
    simp only [playAll_current _ hgame] at hcell
    change (boardAfter b0 ms).board[cellIndex r c].toNat-48 =
      if b0.boardOriginal[cellIndex r c].toNat-48 ≠ 0 then _ else _ at hcell
    by_cases h0 : b0.boardOriginal[cellIndex r c] = 48
    · rw [if_neg (not_not.mpr (hz.mp h0)), ← digitChar_toNat] at hcell
      rw [if_neg (not_not.mpr h0)]
      exact digit_ext (hin.cells r c) (digitChar_isDigit _) hcell
    · rw [if_pos (fun hg => h0 (hz.mpr hg))] at hcell
      rw [if_pos h0]
      exact digit_ext (hin.cells r c) (hp.original r c) hcell
  · exact (boardAfter_board b0 ms).2
  · intro k hk
    have hb : ∀ k, OffCell k → b0.board[k] = b0.boardOriginal[k] := by
      intro k _
      rw [hload.original]
    rw [boardAfter_off_cell b0 ms hr.terminated hb k hk, hload.original]

theorem server_refines_game_empty :
    emptyFile.length ≤ 199 ∧ (0:UInt8) ∉ emptyFile ∧
    ∃ steps, serverRun ⟨0,0,0,0,.ok⟩ emptyBoard
        ([Move.put 0 0 7, .verify, .reset, .put 0 1 3].map Move.toCommand) = .ok steps ∧
      (finalBoard emptyBoard steps).board[cellIndex 0 1] =
        digitChar 3 := by
  have hlen : emptyFile.length ≤ 199 := by decide +kernel
  have hnul : (0:UInt8) ∉ emptyFile := by decide +kernel
  obtain ⟨steps,hs,hcell,-⟩ := server_refines_game emptyFile hlen hnul _ emptyBoard_loaded
    ⟨0,0,0,0,.ok⟩ [Move.put 0 0 7, .verify, .reset, .put 0 1 3]
  refine ⟨hlen,hnul,steps,hs,(hcell 0 1).trans ?_⟩
  have h0 : emptyBoard.boardOriginal[cellIndex 0 1] = 48 := by decide +kernel
  rw [if_neg (not_not.mpr h0)]
  rfl

end Workshop.SudokuGame
