import Workshop.RunAhead
import Workshop.SudokuSession
import Workshop.SudokuVerdict

/-!
# What the player sees

The programs as a game on a grid: a line spells a move, a move changes the
grid and is answered with a drawing of it or with a verdict. A verdict of
error stays until a reset or a put on a given cell. Bytes, buffers and
messages are gone, and the screen of the client shows nothing else.
-/

set_option autoImplicit false

namespace Workshop.SudokuScreen
open Workshop.CMemory Workshop.InteractiveProgram Workshop.ByteChannel
open Workshop.SudokuBoard Workshop.SudokuGrid Workshop.SudokuVerify Workshop.SudokuServer
open Workshop.SudokuLoad Workshop.SudokuGame Workshop.SudokuRender Workshop.SudokuStrings
open Workshop.SudokuClient Workshop.SudokuCommands Workshop.SudokuPlay Workshop.SudokuSession
open Workshop.SudokuProtocol Workshop.SudokuWire
open Workshop.HalfDuplex hiding Step

instance nineNeZero : NeZero 9 := ⟨by decide⟩

def shownDigit (n : ℕ) : UInt8 := if n = 0 then 32 else UInt8.ofNat (n+48)

def boxRow (x y z : ℕ) : Text :=
  [32,shownDigit x,32,'|'.toUInt8,32,shownDigit y,32,'|'.toUInt8,32,shownDigit z,32,'U'.toUInt8]

def gridRow (g : Grid) (r : Fin 9) : Text :=
  'U'.toUInt8::(boxRow (g r 0) (g r 1) (g r 2)++(boxRow (g r 3) (g r 4) (g r 5)++
    (boxRow (g r 6) (g r 7) (g r 8)++[newline])))

def drawingLines (g : Grid) : List Text :=
  [boardRowSepCell,gridRow g 0,boardRowSep,gridRow g 1,boardRowSep,gridRow g 2,
   boardRowSepCell,gridRow g 3,boardRowSep,gridRow g 4,boardRowSep,gridRow g 5,
   boardRowSepCell,gridRow g 6,boardRowSep,gridRow g 7,boardRowSep,gridRow g 8,
   boardRowSepCell]

def drawing (g : Grid) : Text := (drawingLines g).flatten

theorem drawingLines_length {g : Grid} {l : Text} (h : l ∈ drawingLines g) : l.length = 38 := by
  simp only [drawingLines, List.mem_cons, List.not_mem_nil, or_false] at h
  rcases h with rfl | rfl | rfl | rfl | rfl | rfl | rfl | rfl | rfl | rfl | rfl | rfl | rfl |
    rfl | rfl | rfl | rfl | rfl | rfl <;> rfl

theorem drawing_length (g : Grid) : (drawing g).length = 722 := by
  have hm : (drawingLines g).map List.length = List.replicate 19 38 := by
    rw [List.map_congr_left fun l hl => drawingLines_length hl, List.map_const']
    rfl
  rw [drawing, List.length_flatten, hm]
  rfl

theorem drawingLines_get (g : Grid) {a : ℕ} (ha : a < 19) :
    (∃ r : Fin 9, a = 2*r.val+1 ∧ (drawingLines g).getD a [] = gridRow g r) ∨
      a%2 = 0 ∧ (drawingLines g).getD a [] = formatLines.getD a [] := by
  rcases Nat.even_or_odd' a with ⟨r,rfl | rfl⟩
  · refine .inr ⟨by omega,?_⟩
    have hr : r < 10 := by omega
    interval_cases r <;> rfl
  · refine .inl ⟨⟨r,by omega⟩,rfl,?_⟩
    have hr : r < 9 := by omega
    interval_cases r <;> rfl

theorem gridRow_cell (g : Grid) (r c : Fin 9) :
    (gridRow g r).getD (2+4*c.val) 0 = shownDigit (g r c) := by
  fin_cases c <;> rfl

theorem gridRow_off_cell (g : Grid) (r : Fin 9) {b : ℕ} (hb : b < 38)
    (h : ∀ c : Fin 9, b ≠ 2+4*c.val) : (gridRow g r).getD b 0 = boardRow.getD b 0 := by
  by_cases h2 : b%4 = 2 ∧ b < 36
  · exact absurd (show b = 2+4*(b/4) by omega) (h ⟨b/4,by omega⟩)
  · interval_cases b <;> first | rfl | exact absurd ⟨rfl,by decide⟩ h2

theorem shownDigit_cell {c : UInt8} (h : IsDigit c) :
    shownDigit (c.toNat-48) = if c = 48 then 32 else c := by
  have hz := digit_zero h
  rw [shownDigit]
  by_cases h0 : c = 48
  · rw [if_pos h0, if_pos (hz.mp h0)]
  · rw [if_neg h0, if_neg (fun hn => h0 (hz.mpr hn)), Nat.sub_add_cancel h.1, UInt8.ofNat_toNat]

theorem rendering_drawing (b : Board) (hd : DigitCells b.board) :
    rendering b = drawing (gridOf b.board) := by
  have hget (k : ℕ) (hk : k < 722) :
      (rendering b).getD k 0 = (drawing (gridOf b.board)).getD k 0 := by
    obtain ⟨l,j,hj,rfl⟩ : ∃ l j, j < 38 ∧ k = 38*l+j :=
      ⟨k/38,k%38,Nat.mod_lt _ (by decide),(Nat.div_add_mod k 38).symm⟩
    rw [drawing, flatten_getD _ (fun l hl => drawingLines_length hl) _ _ hj]
    have hoff (hne : ∀ r c, 38*l+j ≠ cellPlace r c) :
        (rendering b).getD (38*l+j) 0 = (formatLines.getD l []).getD j 0 := by
      rw [rendering_get b hk, rendered_off_cell, template_get]
      · exact flatten_getD formatLines (fun l hl => line_length hl) _ _ hj
      · intro n hn
        exact hne (rowOf n) (colOf n) ((congrArg Fin.val hn).symm.trans (cellPos_place n))
    rcases drawingLines_get (gridOf b.board) (show l < 19 by omega) with ⟨r,rfl,hline⟩ |
      ⟨heven,hline⟩
    · rw [hline]
      by_cases hcell : ∃ c : Fin 9, j = 2+4*c.val
      · obtain ⟨c,rfl⟩ := hcell
        rw [gridRow_cell, gridOf, shownDigit_cell (hd r c), ← rendering_cell b r c, cellPlace,
          Nat.add_assoc]
      · have hne : ∀ c : Fin 9, j ≠ 2+4*c.val := fun c hc => hcell ⟨c,hc⟩
        rw [gridRow_off_cell _ r hj hne, hoff, row_line]
        intro r' c hc
        simp only [cellPlace] at hc
        have := c.isLt
        exact hne c (by omega)
    · rw [hline, hoff]
      intro r c hc
      simp only [cellPlace] at hc
      have := c.isLt
      omega
  apply List.ext_getElem
  · rw [rendering_length, drawing_length]
  · intro k h1 h2
    have hk := hget k (by rw [rendering_length] at h1; exact h1)
    rw [List.getD_eq_getElem _ _ h1, List.getD_eq_getElem _ _ h2] at hk
    exact hk

/-- A game with the verdict that was given on it and is kept. -/
structure Puzzle where
  game : Game
  wrong : Bool

def Puzzle.play (p : Puzzle) : Move → Puzzle × Text
  | .put r c v =>
    let game := p.game.play (.put r c v)
    if p.game.original r c = 0 then (⟨game,p.wrong⟩,drawing game.current)
    else (⟨game,false⟩,msgNonModifiableCell)
  | .verify =>
    let wrong := decide (Conflict p.game.current) || p.wrong
    (⟨p.game,wrong⟩,if wrong then msgErrorVerify else msgOkVerify)
  | .reset => (⟨p.game.play .reset,false⟩,drawing p.game.original)
  | .get => (p,drawing p.game.current)

def Puzzle.playAll (p : Puzzle) (ms : List Move) : Puzzle := ms.foldl (fun p m => (p.play m).1) p

def Puzzle.answers : Puzzle → List Move → List Text
  | _, [] => []
  | p, m::ms => (p.play m).2::(p.play m).1.answers ms

theorem answers_append (p : Puzzle) (ms ms' : List Move) :
    p.answers (ms++ms') = p.answers ms++(p.playAll ms).answers ms' := by
  induction ms generalizing p with
  | nil => rfl
  | cons m ms ih =>
    rw [List.cons_append, Puzzle.answers, ih, Puzzle.answers, List.cons_append]
    rfl

@[simp] theorem play_game (p : Puzzle) (m : Move) : (p.play m).1.game = p.game.play m := by
  cases m with
  | put r c v =>
    simp only [Puzzle.play]
    split <;> rfl
  | verify => rfl
  | reset => rfl
  | get => rfl

theorem playAll_game (p : Puzzle) (ms : List Move) : (p.playAll ms).game = p.game.playAll ms := by
  induction ms generalizing p with
  | nil => rfl
  | cons m ms ih =>
    refine (ih (p.play m).1).trans ?_
    rw [play_game]
    rfl

def puzzleOf (b : Board) : Puzzle := ⟨gameOf b,decide (b.status = .invalid)⟩

theorem serveMove_puzzle {b : Board} (m : Move) (h : InPlay b) (hr : Resettable b) :
    (puzzleOf b).play m = (puzzleOf (serveMove b m).1,(serveMove b m).2) := by
  have hplay := serveMove_play b m h fun _ => hr
  have hin := serveMove_inPlay b m h fun _ => hr.terminated
  have hdraw := rendering_drawing (serveMove b m).1 hin.cells
  cases m with
  | put r c v =>
    have hz := digit_zero (h.original r c)
    have horiginal : (gameOf b).original r c = (getElem b.boardOriginal (cellIndex r c)
        (cellIndex_lt r c)).toNat-48 := rfl
    by_cases h0 : getElem b.boardOriginal (cellIndex r c) (cellIndex_lt r c) = 48
    · simp only [serveMove, if_pos h0] at hplay hdraw ⊢
      simp only [Puzzle.play, puzzleOf, horiginal, if_pos (hz.mp h0), ← hplay]
      rw [hdraw]
      rfl
    · have hn : ¬ (gameOf b).original r c = 0 := fun hn => h0 (hz.mpr (horiginal ▸ hn))
      simp only [serveMove, if_neg h0] at hplay ⊢
      simp only [Puzzle.play, puzzleOf, if_neg hn, ← hplay]
      rfl
  | verify =>
    have hgame (p : Prop) [Decidable p] : gameOf (flag b p) = gameOf b := by
      rw [gameOf, flag_board, flag_original, gameOf]
    have hcurrent : (gameOf b).current = gridOf b.board := rfl
    by_cases hc : Conflict (gridOf b.board) <;> by_cases hs : b.status = .invalid <;>
      simp [serveMove, Puzzle.play, puzzleOf, flag_status, hgame, hcurrent, hc, hs]
  | reset =>
    simp only [serveMove] at hplay hdraw ⊢
    have hgrid := congrArg Game.current hplay
    simp only [gameOf, Game.play] at hgrid
    rw [hdraw, hgrid, puzzleOf, puzzleOf, hplay]
    rfl
  | get =>
    simp only [serveMove] at hdraw ⊢
    rw [hdraw]
    rfl

theorem resettable_serveMove {b : Board} (m : Move) (h : Resettable b) :
    Resettable (serveMove b m).1 where
  terminated := by
    rw [Terminated, serveMove_original]
    exact h.terminated
  reach := by
    rw [serveMove_original]
    exact h.reach

theorem drawing_ends (g : Grid) : ∃ t, drawing g = t++[newline] := by
  refine ⟨(drawingLines g).dropLast.flatten++boardRowSepCell.dropLast,?_⟩
  have hlast : boardRowSepCell = boardRowSepCell.dropLast++[newline] := rfl
  have hlines : drawingLines g = (drawingLines g).dropLast++[boardRowSepCell] := rfl
  rw [drawing, hlines, List.flatten_append, List.dropLast_concat, List.append_assoc, ← hlast]
  simp

theorem play_ends (p : Puzzle) (m : Move) : ∃ t, (p.play m).2 = t++[newline] := by
  cases m with
  | put r c v =>
    simp only [Puzzle.play]
    split
    · exact drawing_ends _
    · exact ⟨msgNonModifiableCell.dropLast,rfl⟩
  | verify =>
    simp only [Puzzle.play]
    split
    · exact ⟨msgErrorVerify.dropLast,rfl⟩
    · exact ⟨msgOkVerify.dropLast,rfl⟩
  | reset => exact drawing_ends _
  | get => exact drawing_ends _

theorem finalBoard_cons (b : Board) (st : SudokuServer.Step) (steps : List SudokuServer.Step) :
    finalBoard b (st::steps) = finalBoard st.after steps := by
  cases steps <;> rfl

/-- The run lemma: the commands of moves are answered as the puzzle answers
the moves. -/
theorem run_answers (ms : List Move) {s : Server} {b : Board} {commands : List Command}
    {steps : List SudokuServer.Step} {printed : List Text}
    (hsame : List.Forall₂ SameCommand commands (ms.map Move.toCommand)) (h : InPlay b)
    (hr : Resettable b) (hrun : serverRun s b commands = .ok steps)
    (hshown : List.Forall₂ Shown steps printed) :
    printed = (puzzleOf b).answers ms ∧ puzzleOf (finalBoard b steps) = (puzzleOf b).playAll ms := by
  induction ms generalizing s b commands steps printed with
  | nil =>
    cases hsame
    cases hrun
    cases hshown
    exact ⟨rfl,rfl⟩
  | cons m ms ih =>
    cases hsame with
    | @cons c _ commands _ hc hsame =>
      rw [serverRun, receive_same s hc, process_move s b m h fun _ => hr.terminated, ok_bind] at hrun
      obtain ⟨rest,hrest,hsteps⟩ := bind_eq_ok hrun
      cases hsteps
      cases hshown with
      | @cons _ shown _ more hfirst hshown =>
        obtain ⟨t,hsent,rfl⟩ := hfirst
        cases hsent
        have hplay := serveMove_puzzle m h hr
        obtain ⟨hmore,hfinal⟩ := ih hsame (serveMove_inPlay b m h fun _ => hr.terminated)
          (resettable_serveMove m hr) hrest hshown
        obtain ⟨line,hline⟩ := play_ends (puzzleOf b) m
        rw [hplay] at hline
        have hwhole : (serveMove b m).2.dropLast++[newline] = (serveMove b m).2 := by
          rw [hline, List.dropLast_concat]
        constructor
        · rw [Puzzle.answers, hplay, hwhole, hmore]
        · rw [finalBoard_cons, hfinal, Puzzle.playAll, Puzzle.playAll, List.foldl_cons, hplay]

inductive Spells : Text → Move → Prop
  | put (a b e k : ℕ) (v : Fin 10) (r c : Fin 9) : Spells (putLine a b e k v r c) (.put r c v)
  | verify : Spells (text "verify\n") .verify
  | reset : Spells (text "reset\n") .reset
  | get : Spells (text "get\n") .get

def Leaves (line : Text) : Prop := line = text "exit\n" ∨ line.head? = some 255

/-- The moves of a list of lines, up to the one with which the player leaves. -/
inductive Reads : List Text → List Move → Prop
  | nil : Reads [] []
  | leave {line : Text} {lines : List Text} (h : Leaves line) : Reads (line::lines) []
  | move {line : Text} {m : Move} {lines : List Text} {ms : List Move} (h : Spells line m)
      (hrest : Reads lines ms) : Reads (line::lines) (m::ms)
  | skip {line : Text} {lines : List Text} {ms : List Move} (hstays : ¬ Leaves line)
      (h : ∀ m, ¬ Spells line m) (hrest : Reads lines ms) : Reads (line::lines) ms

theorem spells_accepted (self : Client) {line : Text} {m : Move} (h : Spells line m) :
    ∃ s, Accepted self line s ∧ s.command ≠ 'E'.toUInt8 ∧
      SameCommand (Client.toCommand s) m.toCommand := by
  have harg : ∀ {a b : Command}, a.command = b.command → b.command ≠ 'P'.toUInt8 →
      SameCommand a b := fun he hb => ⟨he,fun hP => absurd hP hb⟩
  cases h with
  | put a b e k v r c =>
    exact ⟨_,.put a b e k v r c,show 'P'.toUInt8 ≠ 'E'.toUInt8 by decide,rfl,
      fun _ => ⟨rfl,rfl,rfl⟩⟩
  | verify => exact ⟨_,.verify,show 'V'.toUInt8 ≠ 'E'.toUInt8 by decide,harg rfl (by decide)⟩
  | reset => exact ⟨_,.reset,show 'R'.toUInt8 ≠ 'E'.toUInt8 by decide,harg rfl (by decide)⟩
  | get => exact ⟨_,.get,show 'G'.toUInt8 ≠ 'E'.toUInt8 by decide,harg rfl (by decide)⟩

theorem leaves_accepted (self : Client) {line : Text} (h : Leaves line) :
    Accepted self line (self.accept 'E'.toUInt8) := by
  rcases h with rfl | h
  · exact .exit
  · obtain ⟨rest,rfl⟩ := List.head?_eq_some_iff.mp h
    exact .eof rest

theorem accepted_spells {self s : Client} {line : Text} (h : Accepted self line s) :
    Leaves line ∧ s.command = 'E'.toUInt8 ∨ ∃ m, Spells line m := by
  cases h with
  | put a b e k v r c => exact .inr ⟨_,.put a b e k v r c⟩
  | verify => exact .inr ⟨_,.verify⟩
  | get => exact .inr ⟨_,.get⟩
  | reset => exact .inr ⟨_,.reset⟩
  | exit => exact .inl ⟨.inl rfl,rfl⟩
  | eof rest => exact .inl ⟨.inr rfl,rfl⟩

theorem reads_typed (lines : List Text) (hlines : ∀ line ∈ lines, Typeable line) (self : Client) :
    ∃ ms, Reads lines ms ∧ List.Forall₂ SameCommand ((typed self lines).map Client.toCommand)
      (ms.map Move.toCommand) := by
  induction lines generalizing self with
  | nil => exact ⟨[],.nil,.nil⟩
  | cons line lines ih =>
    obtain ⟨hline,hlines⟩ := List.forall_mem_cons.mp hlines
    have hself : ({ self with status := .ok } : Client).status = .ok := rfl
    have hparse {s : Client} (h : Accepted { self with status := .ok } line s) :=
      accepted_processed _ hself (Vector.replicate maxCommandLength 1) hline.length hline.nonzero h
    by_cases hleaves : Leaves line
    · refine ⟨[],.leave hleaves,?_⟩
      rw [typed, hparse (leaves_accepted _ hleaves)]
      exact .nil
    by_cases hspells : ∃ m, Spells line m
    · obtain ⟨m,hm⟩ := hspells
      obtain ⟨s,hacc,hexit,hsame⟩ := spells_accepted { self with status := .ok } hm
      obtain ⟨ms,hms,hall⟩ := ih hlines s
      refine ⟨m::ms,.move hm hms,?_⟩
      rw [typed, hparse hacc]
      simp only [if_pos (accepted_valid hacc), if_neg hexit]
      exact .cons hsame hall
    · obtain ⟨s,errors,hp,hcases⟩ := process_cases _ hself (Vector.replicate maxCommandLength 1)
        hline.ends hline.length hline.nonzero
      have hinvalid : s.status ≠ .commandValid := by
        rcases hcases with hacc | hinvalid | hkept
        · rcases accepted_spells hacc with ⟨h,-⟩ | h
          · exact absurd h hleaves
          · exact absurd h hspells
        · rw [hinvalid]
          decide
        · rw [hkept]
          decide
      obtain ⟨ms,hms,hall⟩ := ih hlines s
      refine ⟨ms,.skip hleaves (not_exists.mp hspells) hms,?_⟩
      rw [typed, hp]
      simp only [if_neg hinvalid]
      exact hall

theorem toCommand_inj {m m' : Move} (h : SameCommand m.toCommand m'.toCommand) : m = m' := by
  obtain ⟨hcommand,hargs⟩ := h
  cases m with
  | put r c v =>
    cases m' with
    | put r' c' v' =>
      obtain ⟨hr,hc,hv⟩ := hargs rfl
      have hordinal : Function.Injective ordinal := by decide
      have hdigit : Function.Injective digitByte := by decide
      rw [hordinal hr, hordinal hc, hdigit hv]
    | verify | reset | get =>
      simp only [Move.toCommand] at hcommand
      exact absurd hcommand (by decide)
  | verify | reset | get =>
    cases m' <;> simp only [Move.toCommand] at hcommand <;>
      first | rfl | exact absurd hcommand (by decide)

theorem accepted_unique {self s s' : Client} (hself : self.status = .ok) {line : Text}
    (hline : Typeable line) (h : Accepted self line s) (h' : Accepted self line s') : s = s' := by
  have hp := accepted_processed self hself (Vector.replicate maxCommandLength 1) hline.length
    hline.nonzero h
  rw [accepted_processed self hself _ hline.length hline.nonzero h'] at hp
  exact (Prod.mk.inj (Except.ok.inj hp)).1.symm

theorem spells_unique {line : Text} (hline : Typeable line) {m m' : Move} (h : Spells line m)
    (h' : Spells line m') : m = m' := by
  obtain ⟨s,hacc,-,hc,hargs⟩ := spells_accepted ⟨0,0,0,0,.ok⟩ h
  obtain ⟨s',hacc',-,hsame⟩ := spells_accepted ⟨0,0,0,0,.ok⟩ h'
  obtain rfl := accepted_unique rfl hline hacc hacc'
  apply toCommand_inj
  refine same_trans ⟨hc.symm,fun hP => ?_⟩ hsame
  obtain ⟨hr,hcol,hv⟩ := hargs (hc.symm.trans hP)
  exact ⟨hr.symm,hcol.symm,hv.symm⟩

theorem leaves_spells {line : Text} (hline : Typeable line) (h : Leaves line) (m : Move) :
    ¬ Spells line m := by
  intro hm
  obtain ⟨s,hacc,hexit,-⟩ := spells_accepted ⟨0,0,0,0,.ok⟩ hm
  rw [accepted_unique rfl hline hacc (leaves_accepted _ h)] at hexit
  exact hexit rfl

theorem reads_unique {lines : List Text} (hlines : ∀ line ∈ lines, Typeable line)
    {ms ms' : List Move} (h : Reads lines ms) (h' : Reads lines ms') : ms = ms' := by
  induction h generalizing ms' with
  | nil =>
    cases h'
    rfl
  | leave hleaves =>
    have hline := hlines _ List.mem_cons_self
    cases h' with
    | leave _ => rfl
    | move hm _ => exact absurd hm (leaves_spells hline hleaves _)
    | skip hstays _ _ => exact absurd hleaves hstays
  | move hm _ ih =>
    obtain ⟨hline,hlines⟩ := List.forall_mem_cons.mp hlines
    cases h' with
    | leave hleaves => exact absurd hm (leaves_spells hline hleaves _)
    | move hm' hrest =>
      rw [spells_unique hline hm hm', ih hlines hrest]
    | skip _ hnone _ => exact absurd hm (hnone _)
  | skip hstays hnone _ ih =>
    cases h' with
    | leave hleaves => exact absurd hleaves hstays
    | move hm _ => exact absurd hm (hnone _)
    | skip _ _ hrest => exact ih (List.forall_mem_cons.mp hlines).2 hrest

def fileGrid (file : Text) : Grid := fun r c => (file.getD (18*r.val+2*c.val) 0).toNat-48

def newPuzzle (file : Text) : Puzzle := ⟨⟨fileGrid file,fileGrid file⟩,false⟩

theorem kept_get (file : Text) {k : ℕ} (hk : k < (kept file).length) :
    (kept file).getD k 0 = file.getD k 0 := by
  have hinitial : kept file <+: file := List.takeWhile_prefix _
  rw [List.getD_eq_getElem _ _ hk, List.getD_eq_getElem _ _ (hk.trans_le hinitial.length_le),
    hinitial.getElem hk]

theorem loaded_grid {file : Text} {b : Board} (h : Loaded file b) :
    gridOf b.board = fileGrid file := by
  funext r c
  have hdigit := (h.cells r c).1
  have hcell : getElem b.board (cellIndex r c) (cellIndex_lt r c) =
      (kept file).getD (18*r.val+2*c.val) 0 := by
    rw [Fin.getElem_fin, h.eq.2]
    exact fileImage_get file _ (cellIndex_lt r c)
  rw [gridOf, fileGrid, hcell, kept_get]
  by_contra hlt
  rw [Fin.getElem_fin] at hdigit hcell
  rw [hcell, List.getD_eq_default _ _ (by omega)] at hdigit
  exact absurd hdigit (by decide)

theorem loaded_puzzle {file : Text} {b : Board} (h : Loaded file b) :
    puzzleOf b = newPuzzle file := by
  rw [puzzleOf, gameOf, h.original, loaded_grid h, h.status]
  rfl

/-- Both programs have returned, the player has got all answers, and the
server is left with the puzzle as the moves have made it. -/
structure Finished (p : Puzzle) (ms : List Move) (s : Session) : Prop where
  client : ∃ playing, s.left.program = .ret playing
  server : ∃ serving, s.right.program = .ret (serving,.endgame) ∧
    puzzleOf serving.board = p.playAll ms
  printed : s.left.state.printed = p.answers ms

def Prompted (p : Puzzle) (lines : List Text) (s : Session) : Prop :=
  ∃ k ≤ lines.length, s.left.state.input = (lines.drop k).flatten ∧
    ∃ ms, Reads (lines.take k) ms ∧ s.left.state.printed = p.answers ms

section Screen
variable {file : Text} (hlen : file.length ≤ 199) (hnul : (0:UInt8) ∉ file) {b0 : Board}
  (hload : Loaded file b0) {lines : List Text} (hlines : ∀ line ∈ lines, Typeable line)
include hlen hnul hload hlines

theorem recorded_answers {self : Client} {server : Server} {log : List SudokuServer.Step}
    {printed : List Text} {steps : List SudokuServer.Step}
    (h : Recorded server b0 ((typed self lines).map Client.toCommand) log printed steps) :
    ∃ ms, Reads lines ms ∧ printed = (newPuzzle file).answers ms ∧
      puzzleOf (finalBoard b0 steps) = (newPuzzle file).playAll ms := by
  obtain ⟨ms,hms,hsame⟩ := reads_typed lines hlines self
  have hr := loaded_resettable hload (show file.length < 200 by omega) hnul
  obtain ⟨hprinted,hfinal⟩ := run_answers ms hsame hload.inPlay hr h.run h.shown
  rw [loaded_puzzle hload] at hprinted hfinal
  exact ⟨ms,hms,hprinted,hfinal⟩

theorem final_finished {self : Client} {server : Server} {ms : List Move} (hms : Reads lines ms)
    {s : Session} (h : Final self server b0 lines s) : Finished (newPuzzle file) ms s := by
  obtain ⟨playing,hclient,-⟩ := h.client
  obtain ⟨serving,steps,hserver,hrecorded,hboard⟩ := h.server
  obtain ⟨ms',hms',hprinted,hfinal⟩ := recorded_answers hlen hnul hload hlines hrecorded
  obtain rfl := reads_unique hlines hms hms'
  exact ⟨⟨playing,hclient⟩,⟨serving,hserver,hboard ▸ hfinal⟩,hprinted⟩

theorem good_prompted {self : Client} {server : Server} {s : Session}
    (h : Good self server b0 lines s) (hread : AtRead s.left.program) :
    Prompted (newPuzzle file) lines s := by
  obtain ⟨-,-,k,hk,hinput,steps,hrecorded⟩ := h hread
  have htake : ∀ line ∈ lines.take k, Typeable line := fun line hl =>
    hlines line (List.mem_of_mem_take hl)
  obtain ⟨ms,hms,hprinted,-⟩ := recorded_answers hlen hnul hload htake hrecorded
  exact ⟨k,hk,hinput,ms,hms,hprinted⟩

theorem ends_started (messageLen : Vector UInt8 headerLen) (client : Client) (server : Server)
    (status : BoardStatus) {n m : ℕ} (hn : lines.length+1 < n) (hm : lines.length < m) :
    Ends (HalfDuplex.Step terminal logging) (Good (Client.enter client) server b0 lines)
      (Final (Client.enter client) server b0 lines)
      (started messageLen n m client server status file lines) := by
  obtain ⟨n,rfl⟩ := Nat.exists_eq_succ_of_ne_zero (Nat.ne_of_gt (Nat.zero_lt_of_lt hn))
  have hplayable : Playable b0 :=
    ⟨hload.inPlay,(loaded_resettable hload (show file.length < 200 by omega) hnul).terminated⟩
  have hread := (serverBoardRead_iff status file b0).mpr hload.eq
  rw [started, sudokuPlay, play_turn (n+1) n (by simp [Client.enter]), sudokuRunServer, hread,
    checked_ok, Program.ret_bind]
  have hfollows := follows_status (follows_start (Client.enter client) server b0) .commandInvalid
  exact ends_reading messageLen (List.nil_append lines).symm hlines rfl hplayable hfollows hn
    (by omega) hn hm

end Screen

theorem terminal_printed (op : StdioOp) (s : Stdio) : s.printed <+: (terminal op s).2.printed := by
  cases op with
  | printf t => exact List.prefix_append _ _
  | fgetc => exact List.prefix_refl _
  | ungetc c => exact List.prefix_refl _
  | fgets size => exact List.prefix_refl _
  | fprintf t => exact List.prefix_refl _

/-- The programs refine the puzzle: whatever the interleaving and however the
transfers are cut, the screen shows answers of the puzzle of the file to the
moves the lines spell, all of them in the end, and before each line those to
the lines before it. -/
theorem screen_shows_puzzle (file : Text) (hlen : file.length ≤ 199) (hnul : (0:UInt8) ∉ file)
    (b0 : Board) (hload : Loaded file b0) (lines : List Text)
    (hlines : ∀ line ∈ lines, Typeable line) (messageLen : Vector UInt8 headerLen)
    (client : Client) (server : Server) (status : BoardStatus) (n m : ℕ)
    (hn : lines.length+1 < n) (hm : lines.length < m) :
    ∃ ms, Reads lines ms ∧ ∀ s, Relation.ReflTransGen (HalfDuplex.Step terminal logging)
        (started messageLen n m client server status file lines) s →
      s.left.state.printed <+: (newPuzzle file).answers ms ∧
      (AtRead s.left.program → Prompted (newPuzzle file) lines s) ∧
      (∃ t, Relation.ReflTransGen (HalfDuplex.Step terminal logging) s t ∧
        Finished (newPuzzle file) ms t) ∧
      ((∀ t, ¬ HalfDuplex.Step terminal logging s t) → Finished (newPuzzle file) ms s) := by
  obtain ⟨ms,hms,-⟩ := reads_typed lines hlines (Client.enter client)
  have hends := ends_started hlen hnul hload hlines messageLen client server status hn hm
  refine ⟨ms,hms,fun s hs => ?_⟩
  have hreached := ends_reachable hends hs
  have hfinished {t : Session} := @final_finished _ hlen hnul _ hload _ hlines
    (Client.enter client) server _ hms t
  obtain ⟨t,ht,hfinal⟩ := ends_final hreached
  refine ⟨?_,good_prompted hlen hnul hload hlines (ends_good hreached),⟨t,ht,hfinished hfinal⟩,
    fun hrest => hfinished (ends_rest hreached hrest)⟩
  rw [← (hfinished hfinal).printed]
  exact RunAhead.left_extends Stdio.printed terminal_printed ht

def someLines : List Text := [text "put 5 in 1,2\n",text "help\n",text "verify\n",text "exit\n"]

theorem someLines_typeable : ∀ line ∈ someLines, Typeable line := by
  simp only [someLines, List.forall_mem_cons]
  exact ⟨⟨⟨text "put 5 in 1,2",by decide,by decide⟩,by decide,by decide⟩,
    ⟨⟨text "help",by decide,by decide⟩,by decide,by decide⟩,
    ⟨⟨text "verify",by decide,by decide⟩,by decide,by decide⟩,
    ⟨⟨text "exit",by decide,by decide⟩,by decide,by decide⟩,fun _ h => by cases h⟩

theorem someLines_reads : Reads someLines [.put 0 1 5,.verify] := by
  have hput : text "put 5 in 1,2\n" = putLine 0 0 0 0 5 0 1 := by decide
  have hhelp : ∀ m, ¬ Spells (text "help\n") m := by
    intro m hm
    obtain ⟨s,hacc,-⟩ := spells_accepted ⟨0,0,0,0,.ok⟩ hm
    have hp := accepted_processed _ rfl (Vector.replicate maxCommandLength 1) (by decide)
      (by decide) hacc
    have hinvalid : clientCommandProcess ⟨0,0,0,0,.ok⟩ (readInto (Vector.replicate maxCommandLength 1)
        (text "help\n")) = .ok (⟨0,0,0,0,.commandInvalid⟩,[errorInvalidCommand]) := by
      rw [process_eq _ rfl _ (by decide) (by decide)]
      rfl
    rw [hinvalid] at hp
    cases hp
  refine .move (hput ▸ .put 0 0 0 0 5 0 1) (.skip ?_ hhelp (.move .verify (.leave (.inl rfl))))
  rintro (h | h) <;> exact absurd h (by decide)

theorem screen_shows_puzzle_put : ∃ s : Session,
    Relation.ReflTransGen (HalfDuplex.Step terminal logging)
      (started (Vector.replicate headerLen 0) 6 5 ⟨0,0,0,0,.ok⟩ ⟨0,0,0,0,.ok⟩ .ok emptyFile
        someLines) s ∧
    s.left.state.printed = [drawing fun r c => if r = 0 ∧ c = 1 then 5 else 0,msgOkVerify] := by
  obtain ⟨ms,hms,hall⟩ := screen_shows_puzzle emptyFile (by decide +kernel) (by decide +kernel)
    emptyBoard emptyBoard_loaded someLines someLines_typeable (Vector.replicate headerLen 0)
    ⟨0,0,0,0,.ok⟩ ⟨0,0,0,0,.ok⟩ .ok 6 5 (by decide) (by decide)
  obtain ⟨-,-,⟨s,hs,hfinished⟩,-⟩ := hall _ .refl
  obtain rfl := reads_unique someLines_typeable hms someLines_reads
  have hempty : fileGrid emptyFile = fun _ _ => 0 := by
    rw [← loaded_grid emptyBoard_loaded]
    exact funext fun r => funext (SudokuVerdict.emptyBoard_grid r)
  have hconflict : ¬ Conflict fun r c => if r = 0 ∧ c = 1 then (5:Fin 10).val else 0 := by
    rw [conflict_iff_clash]
    decide +kernel
  refine ⟨s,hs,hfinished.printed.trans ?_⟩
  simp only [newPuzzle, hempty, Puzzle.answers, Puzzle.play, Game.play, if_true, hconflict,
    decide_false, Bool.or_false, if_false, Bool.false_eq_true]
  rfl

theorem answers_length (p : Puzzle) (ms : List Move) : (p.answers ms).length = ms.length := by
  induction ms generalizing p with
  | nil => rfl
  | cons m ms ih => rw [Puzzle.answers, List.length_cons, ih, List.length_cons]

theorem answers_initial {p : Puzzle} {ms : List Move} {shown : List Text}
    (h : shown <+: p.answers ms) : ∃ done, done <+: ms ∧ shown = p.answers done := by
  have hle := h.length_le
  rw [answers_length] at hle
  refine ⟨ms.take shown.length,List.take_prefix _ _,?_⟩
  have hsplit := answers_append p (ms.take shown.length) (ms.drop shown.length)
  rw [List.take_append_drop] at hsplit
  rw [hsplit] at h
  apply List.IsPrefix.eq_of_length (List.prefix_of_prefix_length_le h (List.prefix_append _ _) _)
  · rw [answers_length, List.length_take, Nat.min_eq_left hle]
  · rw [answers_length, List.length_take, Nat.min_eq_left hle]

/-- The cells are filled in without a conflict and over nothing that was given,
and without a free cell this is a solution. -/
structure Verified (given g : Grid) : Prop where
  conflict : ¬ Conflict g
  given : ∀ r c, given r c ≠ 0 → g r c = given r c
  solved : (∀ r c, g r c ≠ 0) → Solved g

theorem playAll_le {g : Game} (hg : g.current = g.original) (h9 : ∀ r c, g.original r c ≤ 9)
    (ms : List Move) (r c : Fin 9) : (g.playAll ms).current r c ≤ 9 := by
  rw [playAll_current g hg]
  split
  · exact h9 r c
  · exact Nat.le_of_lt_succ ((lastPut r c ms.reverse).getD 0).isLt

theorem drawing_not_ok (g : Grid) : drawing g ≠ msgOkVerify := by
  intro h
  have hlen := congrArg List.length h
  rw [drawing_length] at hlen
  exact absurd hlen (by decide)

theorem play_ok {p : Puzzle} {m : Move} (h : (p.play m).2 = msgOkVerify) :
    m = .verify ∧ ¬ Conflict p.game.current := by
  cases m with
  | put r c v =>
    simp only [Puzzle.play] at h
    split at h
    · exact absurd h (drawing_not_ok _)
    · exact absurd (show msgNonModifiableCell = msgOkVerify from h) (by decide)
  | verify =>
    simp only [Puzzle.play] at h
    refine ⟨rfl,fun hc => ?_⟩
    rw [decide_eq_true hc, Bool.true_or, if_pos rfl] at h
    exact SudokuVerdict.messages_differ h
  | reset => exact absurd h (drawing_not_ok _)
  | get => exact absurd h (drawing_not_ok _)

theorem verified_last {g : Grid} (h9 : ∀ r c, g r c ≤ 9) {ms : List Move}
    (h : ((Puzzle.mk ⟨g,g⟩ false).answers ms).getLast? = some msgOkVerify) :
    Verified g ((Puzzle.mk ⟨g,g⟩ false).playAll ms).game.current := by
  induction ms using List.reverseRecOn with
  | nil => cases h
  | append_singleton ms m _ =>
    rw [answers_append, Puzzle.answers, Puzzle.answers, List.getLast?_concat] at h
    obtain ⟨rfl,hconflict⟩ := play_ok (Option.some.inj h)
    have hgame : ((Puzzle.mk ⟨g,g⟩ false).playAll (ms++[.verify])).game = Game.playAll ⟨g,g⟩ ms := by
      rw [playAll_game, Game.playAll, List.foldl_append]
      rfl
    rw [playAll_game] at hconflict
    rw [hgame]
    refine ⟨hconflict,fun r c hgiven => ?_,fun hfull => ?_⟩
    · rw [playAll_current ⟨g,g⟩ rfl, if_pos hgiven]
    · exact solved_of_no_conflict hconflict fun r c =>
        ⟨Nat.pos_of_ne_zero (hfull r c),playAll_le (g := ⟨g,g⟩) rfl h9 ms r c⟩

theorem fileGrid_le {file : Text} {b : Board} (h : Loaded file b) (r c : Fin 9) :
    fileGrid file r c ≤ 9 := by
  have hdigit := (h.cells r c).2
  rw [← loaded_grid h, gridOf]
  exact Nat.sub_le_iff_le_add.mpr hdigit

/-- The verdict on the screen is to be trusted: when it is an OK, the moves
answered so far have left a grid without a conflict in which all given digits
stand, and if it is full, the puzzle of the file is solved. -/
theorem ok_means_solved (file : Text) (hlen : file.length ≤ 199) (hnul : (0:UInt8) ∉ file)
    (b0 : Board) (hload : Loaded file b0) (lines : List Text)
    (hlines : ∀ line ∈ lines, Typeable line) (messageLen : Vector UInt8 headerLen)
    (client : Client) (server : Server) (status : BoardStatus) (n m : ℕ)
    (hn : lines.length+1 < n) (hm : lines.length < m) (s : Session)
    (hs : Relation.ReflTransGen (HalfDuplex.Step terminal logging)
      (started messageLen n m client server status file lines) s)
    (hok : s.left.state.printed.getLast? = some msgOkVerify) :
    ∃ ms done, Reads lines ms ∧ done <+: ms ∧ s.left.state.printed = (newPuzzle file).answers done ∧
      Verified (fileGrid file) ((newPuzzle file).playAll done).game.current := by
  obtain ⟨ms,hms,-⟩ := reads_typed lines hlines (Client.enter client)
  have hends := ends_started hlen hnul hload hlines messageLen client server status hn hm
  obtain ⟨t,ht,hfinal⟩ := ends_final (ends_reachable hends hs)
  have hfinished := final_finished hlen hnul hload hlines hms hfinal
  have hshown := RunAhead.left_extends Stdio.printed terminal_printed ht
  rw [hfinished.printed] at hshown
  obtain ⟨done,hdone,hprinted⟩ := answers_initial hshown
  rw [hprinted] at hok
  exact ⟨ms,done,hms,hdone,hprinted,verified_last (fileGrid_le hload) hok⟩

def solvedFile : Text :=
  text "1 2 3 4 5 6 7 8 9\n4 5 6 7 8 9 1 2 3\n7 8 9 1 2 3 4 5 6\n"++
  (text "2 3 4 5 6 7 8 9 1\n5 6 7 8 9 1 2 3 4\n8 9 1 2 3 4 5 6 7\n"++
  text "3 4 5 6 7 8 9 1 2\n6 7 8 9 1 2 3 4 5\n9 1 2 3 4 5 6 7 8\n")

theorem solvedFile_loaded : Loaded solvedFile ⟨fileImage solvedFile,fileImage solvedFile,.ok⟩ where
  read := ⟨.ok,(serverBoardRead_iff _ _ _).mpr ⟨by decide +kernel,rfl⟩⟩
  cells := by decide +kernel

theorem ok_means_solved_full : Solved (fileGrid solvedFile) := by
  have hline : ∀ line ∈ [text "verify\n"], Typeable line := by
    simp only [List.forall_mem_cons]
    exact ⟨⟨⟨text "verify",by decide,by decide⟩,by decide,by decide⟩,fun _ h => by cases h⟩
  have hlen : solvedFile.length ≤ 199 := by decide +kernel
  have hnul : (0:UInt8) ∉ solvedFile := by decide +kernel
  have hreads : Reads [text "verify\n"] [.verify] := .move .verify .nil
  have hends := ends_started hlen hnul solvedFile_loaded hline (Vector.replicate headerLen 0)
    ⟨0,0,0,0,.ok⟩ ⟨0,0,0,0,.ok⟩ .ok (show 2 < 3 by decide) (show 1 < 2 by decide)
  obtain ⟨s,hs,hfinal⟩ := ends_final hends
  have hprinted := (final_finished hlen hnul solvedFile_loaded hline hreads hfinal).printed
  have hconflict : ¬ Conflict (fileGrid solvedFile) := by
    rw [conflict_iff_clash]
    decide +kernel
  have hok : (newPuzzle solvedFile).answers [.verify] = [msgOkVerify] := by
    simp only [newPuzzle, Puzzle.answers, Puzzle.play, hconflict, decide_false, Bool.or_false,
      if_false, Bool.false_eq_true]
  rw [hok] at hprinted
  obtain ⟨_,done,-,-,-,hverified⟩ := ok_means_solved solvedFile hlen hnul _ solvedFile_loaded
    [text "verify\n"] hline (Vector.replicate headerLen 0) ⟨0,0,0,0,.ok⟩ ⟨0,0,0,0,.ok⟩ .ok 3 2
    (by decide) (by decide) s hs (by rw [hprinted]; rfl)
  have hfull : ∀ r c, fileGrid solvedFile r c ≠ 0 := by decide +kernel
  have hsame : ((newPuzzle solvedFile).playAll done).game.current = fileGrid solvedFile :=
    funext fun r => funext fun c => hverified.given r c (hfull r c)
  have hsolved := hverified.solved
  rw [hsame] at hsolved
  exact hsolved hfull

end Workshop.SudokuScreen
