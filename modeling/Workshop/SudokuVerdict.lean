import Workshop.SudokuGame

/-!
# When the answer to verify is the truth

Verification only ever sets the invalid mark. A reset and a refused put clear
it, a put that is carried out leaves it alone. A verify command therefore
answers for the boards since the last clearing, not for the current one.
-/

set_option autoImplicit false

namespace Workshop.SudokuVerdict
open Workshop.CMemory Workshop.SudokuBoard Workshop.SudokuGrid Workshop.SudokuVerify
open Workshop.SudokuServer Workshop.SudokuLoad Workshop.SudokuGame

def Truthful (st : Step) : Prop := st.command.command = 'V'.toUInt8 →
  st.sent = [if Conflict (gridOf st.before.board) then msgErrorVerify else msgOkVerify]

def TruthfulRun (s : Server) (b : Board) (ms : List Move) : Prop :=
  ∃ steps, serverRun s b (ms.map Move.toCommand) = .ok steps ∧ ∀ st ∈ steps, Truthful st

def Clears (original : Vector UInt8 boardSize) : Move → Prop
  | .put r c _ => getElem original (cellIndex r c) (cellIndex_lt r c) ≠ 48
  | .verify => False
  | .reset => True
  | .get => False

/-- No verify meets a board without a conflict when an earlier one met a
conflict and nothing in between has cleared the mark. -/
def NoStaleVerify (original cells : Vector UInt8 boardSize) (ms : List Move) : Prop :=
  ∀ pre mid post, ms = pre ++ .verify::(mid ++ .verify::post) →
    Conflict (gridOf (cellsAfter original cells pre)) → (∀ m ∈ mid, ¬ Clears original m) →
    Conflict (gridOf (cellsAfter original cells (pre ++ .verify::mid)))

theorem boardAfter_concat (b : Board) (ms : List Move) (m : Move) :
    boardAfter b (ms ++ [m]) = (serveMove (boardAfter b ms) m).1 := by
  simp [boardAfter]

theorem mem_serveMoves (b : Board) (ms : List Move) (st : Step) :
    st ∈ serveMoves b ms ↔ ∃ l m r, ms = l ++ m::r ∧
      st = ⟨m.toCommand,boardAfter b l,(serveMove (boardAfter b l) m).1,
        [(serveMove (boardAfter b l) m).2]⟩ := by
  induction ms generalizing b with
  | nil => simp [serveMoves]
  | cons m ms ih =>
    rw [serveMoves, List.mem_cons, ih]
    constructor
    · rintro (rfl | ⟨l,m',r,rfl,rfl⟩)
      · exact ⟨[],m,ms,rfl,rfl⟩
      · exact ⟨m::l,m',r,rfl,rfl⟩
    · rintro ⟨l,m',r,hms,rfl⟩
      cases l with
      | nil =>
        obtain ⟨rfl,rfl⟩ := List.cons.inj hms
        exact Or.inl rfl
      | cons m0 l =>
        obtain ⟨rfl,rfl⟩ := List.cons.inj hms
        exact Or.inr ⟨l,m',r,rfl,rfl⟩

theorem messages_differ : msgErrorVerify ≠ msgOkVerify := by decide

theorem truthful_verify_iff (b : Board) :
    Truthful ⟨Move.verify.toCommand,b,(serveMove b .verify).1,[(serveMove b .verify).2]⟩ ↔
      (b.status = .invalid → Conflict (gridOf b.board)) := by
  have hm := messages_differ
  simp only [Truthful, Move.toCommand, forall_const, serveMove, flag_status, List.cons.injEq,
    and_true]
  by_cases hc : Conflict (gridOf b.board)
  · simp [hc]
  · by_cases hs : b.status = .invalid <;> simp [hc, hs, hm]

theorem truthful_other (b : Board) (m : Move) (hm : m ≠ .verify) :
    Truthful ⟨m.toCommand,b,(serveMove b m).1,[(serveMove b m).2]⟩ := by
  intro hV
  cases m with
  | put r c v => exact absurd hV (by simp only [Move.toCommand]; decide)
  | verify => exact absurd rfl hm
  | reset => exact absurd hV (by simp only [Move.toCommand]; decide)
  | get => exact absurd hV (by simp only [Move.toCommand]; decide)

theorem truthful_steps_iff (b : Board) (ms : List Move) :
    (∀ st ∈ serveMoves b ms, Truthful st) ↔ ∀ l r, ms = l ++ .verify::r →
      (boardAfter b l).status = .invalid → Conflict (gridOf (boardAfter b l).board) := by
  constructor
  · intro h l r hms
    exact (truthful_verify_iff _).mp (h _ ((mem_serveMoves b ms _).mpr ⟨l,.verify,r,hms,rfl⟩))
  · intro h st hst
    obtain ⟨l,m,r,hms,rfl⟩ := (mem_serveMoves b ms st).mp hst
    by_cases hm : m = .verify
    · subst hm
      exact (truthful_verify_iff _).mpr (h l r hms)
    · exact truthful_other _ m hm

/-- Some verify met a conflict and nothing after it has cleared the mark. -/
def Marked (original cells : Vector UInt8 boardSize) (ms : List Move) : Prop :=
  ∃ pre mid, ms = pre ++ .verify::mid ∧ Conflict (gridOf (cellsAfter original cells pre)) ∧
    ∀ m ∈ mid, ¬ Clears original m

theorem marked_concat (original cells : Vector UInt8 boardSize) (ms : List Move) (m : Move) :
    Marked original cells (ms ++ [m]) ↔
      (m = .verify ∧ Conflict (gridOf (cellsAfter original cells ms))) ∨
      (¬ Clears original m ∧ Marked original cells ms) := by
  constructor
  · rintro ⟨pre,mid,hms,hc,hmid⟩
    rcases List.eq_nil_or_concat mid with rfl | ⟨mid,m',rfl⟩
    · obtain ⟨rfl,h⟩ := List.append_inj' hms rfl
      obtain rfl : m = .verify := by simpa using h
      exact Or.inl ⟨rfl,hc⟩
    · rw [List.concat_eq_append] at hms hmid
      have hms' : ms ++ [m] = (pre ++ .verify::mid) ++ [m'] := by simpa using hms
      obtain ⟨rfl,h⟩ := List.append_inj' hms' rfl
      obtain rfl : m = m' := by simpa using h
      exact Or.inr ⟨hmid m (by simp),pre,mid,rfl,hc,fun x hx => hmid x (by simp [hx])⟩
  · rintro (⟨rfl,hc⟩ | ⟨hm,pre,mid,rfl,hc,hmid⟩)
    · exact ⟨ms,[],rfl,hc,by simp⟩
    · refine ⟨pre,mid ++ [m],by simp,hc,fun x hx => ?_⟩
      rcases List.mem_append.mp hx with hx | hx
      · exact hmid x hx
      · obtain rfl : x = m := by simpa using hx
        exact hm

/-- The status field is invalid exactly when the history says so. -/
theorem status_invalid_iff (b : Board) (hb : b.status = .ok) (ms : List Move) :
    (boardAfter b ms).status = .invalid ↔ Marked b.boardOriginal b.board ms := by
  induction ms using List.reverseRecOn with
  | nil => simp [boardAfter, hb, Marked]
  | append_singleton ms m ih =>
    obtain ⟨hcells,horig⟩ := boardAfter_board b ms
    rw [boardAfter_concat, marked_concat, ← ih, ← hcells]
    generalize boardAfter b ms = b' at horig ⊢
    cases m with
    | put r c v =>
      simp only [serveMove, Clears, horig]
      by_cases h0 : b.boardOriginal[cellIndex r c] = 48
      · rw [if_pos h0]
        simp [h0, putBoard]
      · rw [if_neg h0]
        simp only [ne_eq, h0, not_false_eq_true, not_true_eq_false, false_and, or_false,
          reduceCtorEq]
    | verify =>
      by_cases hc : Conflict (gridOf b'.board) <;> simp [serveMove, flag_status, Clears, hc]
    | reset => simp [serveMove, resetBoard, Clears]
    | get => simp [serveMove, Clears]

theorem noStale_iff (b : Board) (hb : b.status = .ok) (ms : List Move) :
    NoStaleVerify b.boardOriginal b.board ms ↔ ∀ l r, ms = l ++ .verify::r →
      (boardAfter b l).status = .invalid → Conflict (gridOf (boardAfter b l).board) := by
  constructor
  · intro h l r hms hs
    obtain ⟨pre,mid,rfl,hc,hmid⟩ := (status_invalid_iff b hb l).mp hs
    rw [(boardAfter_board b _).1]
    exact h pre mid r (by simpa using hms) hc hmid
  · intro h pre mid post hms hc hmid
    have hl : ms = (pre ++ .verify::mid) ++ .verify::post := by simpa using hms
    rw [← (boardAfter_board b _).1]
    exact h _ post hl ((status_invalid_iff b hb _).mpr ⟨pre,mid,rfl,hc,hmid⟩)

/-- On every run of moves from a loaded board, the verify answers are the
truth about the current cells exactly when no stale mark is met and no reset
has to copy an unterminated original. -/
theorem verify_truthful_iff (file : Text) (b0 : Board) (hload : Loaded file b0) (s : Server)
    (ms : List Move) :
    TruthfulRun s b0 ms ↔ (.reset ∈ ms → Terminated b0) ∧
      NoStaleVerify b0.boardOriginal b0.board ms := by
  have hrun := run_moves s b0 ms hload.inPlay
  by_cases ht : .reset ∈ ms → Terminated b0
  · have hex : TruthfulRun s b0 ms ↔ ∀ st ∈ serveMoves b0 ms, Truthful st := by
      simp only [TruthfulRun, hrun.1 ht, Except.ok.injEq, exists_eq_left']
    rw [hex, truthful_steps_iff, noStale_iff b0 hload.status, and_iff_right ht]
  · obtain ⟨hr,hn⟩ := Classical.not_imp.mp ht
    have hno : ¬ TruthfulRun s b0 ms := by
      rintro ⟨steps,hs,-⟩
      rw [hrun.2 hr hn] at hs
      cases hs
    exact ⟨fun h => absurd h hno,fun h => absurd h.1 ht⟩

def checkedMoves : List Move :=
  [.put 0 0 5, .put 0 1 5, .verify, .get, .verify, .reset, .put 8 8 5, .verify]

theorem checkedMoves_checked (k : ℕ) (hk : k < 8) (hv : checkedMoves[k]? = some .verify)
    (hs : (boardAfter emptyBoard (checkedMoves.take k)).status = .invalid) :
    Conflict (gridOf (boardAfter emptyBoard (checkedMoves.take k)).board) := by
  revert k
  decide +kernel

theorem verify_truthful_iff_checked :
    Loaded emptyFile emptyBoard ∧ TruthfulRun ⟨0,0,0,0,.ok⟩ emptyBoard checkedMoves := by
  refine ⟨emptyBoard_loaded,(verify_truthful_iff emptyFile emptyBoard emptyBoard_loaded
    ⟨0,0,0,0,.ok⟩ checkedMoves).mpr ⟨fun _ => by decide +kernel,?_⟩⟩
  rw [noStale_iff emptyBoard emptyBoard_loaded.status]
  intro l r hms
  have hlen : l.length < 8 := by
    have h := congrArg List.length hms
    simp only [checkedMoves, List.length_append, List.length_cons, List.length_nil] at h
    omega
  have htake : checkedMoves.take l.length = l := by rw [hms, List.take_left]
  have hnext : checkedMoves[l.length]? = some .verify := by rw [hms]; simp
  have hcheck := checkedMoves_checked l.length hlen hnext
  rwa [htake] at hcheck

def repairedMoves : List Move := [.put 0 0 5, .put 0 1 5, .verify, .put 0 1 0]

theorem emptyBoard_original (r c : Fin 9) :
    getElem emptyBoard.boardOriginal (cellIndex r c) (cellIndex_lt r c) = 48 := by
  revert r c
  decide +kernel

theorem emptyBoard_grid (r c : Fin 9) : gridOf emptyBoard.board r c = 0 := by
  have hcell : emptyBoard.board[cellIndex r c] = 48 := by
    rw [← emptyBoard_loaded.original]
    exact emptyBoard_original r c
  rw [gridOf, hcell]
  rfl

theorem emptyBoard_put (ms : List Move) (r c : Fin 9) (v : Fin 10) :
    gridOf (cellsAfter emptyBoard.boardOriginal emptyBoard.board (ms ++ [.put r c v])) =
      fun i j => if i = r ∧ j = c then v.val
        else gridOf (cellsAfter emptyBoard.boardOriginal emptyBoard.board ms) i j := by
  rw [cellsAfter_concat, moveCells, if_pos (emptyBoard_original r c), gridOf_set]

/-- The second verify of this run says `ERROR` on a board without a conflict. -/
theorem repaired_board_still_error :
    Loaded emptyFile emptyBoard ∧
      ¬ TruthfulRun ⟨0,0,0,0,.ok⟩ emptyBoard (repairedMoves ++ [.verify]) := by
  refine ⟨emptyBoard_loaded,?_⟩
  rintro ⟨steps,hs,htrue⟩
  rw [(run_moves _ _ _ emptyBoard_loaded.inPlay).1 (by decide)] at hs
  obtain rfl := Except.ok.inj hs
  have hall := (truthful_steps_iff emptyBoard (repairedMoves ++ [Move.verify])).mp htrue
  have hput := emptyBoard_put
  have h1 : gridOf (cellsAfter emptyBoard.boardOriginal emptyBoard.board
      [.put 0 0 5, .put 0 1 5]) = fun i j => if i = 0 ∧ j = 1 then 5
        else if i = 0 ∧ j = 0 then 5 else 0 := by
    have h := hput [.put 0 0 5] 0 1 5
    rw [← List.nil_append [Move.put 0 0 5], hput [] 0 0 5] at h
    rw [List.nil_append, List.singleton_append] at h
    rw [h]
    funext i j
    simp [cellsAfter, emptyBoard_grid]
  have hv : cellsAfter emptyBoard.boardOriginal emptyBoard.board
      ([Move.put 0 0 5, Move.put 0 1 5] ++ [Move.verify]) =
      cellsAfter emptyBoard.boardOriginal emptyBoard.board [.put 0 0 5, .put 0 1 5] :=
    cellsAfter_concat _ _ _ _
  have h2 : gridOf (cellsAfter emptyBoard.boardOriginal emptyBoard.board repairedMoves) =
      fun i j => if i = 0 ∧ j = 1 then 0 else if i = 0 ∧ j = 0 then 5 else 0 := by
    have hl : repairedMoves =
        ([Move.put 0 0 5, Move.put 0 1 5] ++ [Move.verify]) ++ [Move.put 0 1 0] := rfl
    rw [hl, hput, hv, h1]
    funext i j
    by_cases hp : i = 0 ∧ j = 1 <;> simp [hp]
  have hmarked : (boardAfter emptyBoard repairedMoves).status = .invalid := by
    apply (status_invalid_iff emptyBoard emptyBoard_loaded.status repairedMoves).mpr
    refine ⟨[.put 0 0 5, .put 0 1 5],[.put 0 1 0],rfl,?_,?_⟩
    · rw [h1]
      exact ⟨(0,0),(0,1),by decide,by decide,by decide,by decide⟩
    · rintro m hm
      obtain rfl : m = .put 0 1 0 := by simpa using hm
      exact not_not.mpr (emptyBoard_original 0 1)
  have hc := hall repairedMoves [] rfl hmarked
  rw [(boardAfter_board _ _).1, h2] at hc
  obtain ⟨p,q,hne,-,he,hz⟩ := hc
  have hp : p = (0,0) := by
    by_contra h
    simp only [Prod.ext_iff] at h
    simp [h] at hz
  have hq : q = (0,0) := by
    rw [he] at hz
    by_contra h
    simp only [Prod.ext_iff] at h
    simp [h] at hz
  exact hne (hp.trans hq.symm)

end Workshop.SudokuVerdict
