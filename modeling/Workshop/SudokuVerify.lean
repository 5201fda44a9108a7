import Workshop.SudokuBoard
import Workshop.SudokuGrid

/-!
# The verification passes

Each pass keeps a bit mask of the digits met in the current unit, the digit
`d` at bit `9-d`, and marks the board invalid when a bit is met twice. The
passes never clear that mark.
-/

set_option autoImplicit false

namespace Workshop.SudokuVerify
open Workshop.CMemory Workshop.SudokuBoard Workshop.SudokuGrid

structure Scan where
  self : Board
  mask : BitVec 16

/-- The innermost loop body, which the three passes share. -/
def markDigit (i j : UInt8) (s : Scan) : Checked Scan := do
  let c ← boardValueGet s.self i j
  let value := schar c-48
  let seen ← shiftedBit s.mask (9-value)
  if seen then .ok { s with self := { s.self with status := .invalid } }
  else if value ≠ 0 then do
    let mask ← withBit s.mask (9-value)
    .ok { s with mask }
  else .ok s

def boardRowVerify (self : Board) : Checked Board := do
  let s ← forUpTo 1 9 (fun i s => do
    let s ← forUpTo 1 9 (fun j s => markDigit (UInt8.ofNat i) (UInt8.ofNat j) s) s
    .ok { s with mask := 0 }) ⟨self,0⟩
  .ok s.self

def boardColVerify (self : Board) : Checked Board := do
  let s ← forUpTo 1 9 (fun i s => do
    let s ← forUpTo 1 9 (fun j s => markDigit (UInt8.ofNat j) (UInt8.ofNat i) s) s
    .ok { s with mask := 0 }) ⟨self,0⟩
  .ok s.self

def boardCellVerify (self : Board) : Checked Board := do
  let s ← forUpTo 1 3 (fun i s => forUpTo 1 3 (fun j s => do
    let s ← forUpTo (3*i-2) (3*i) (fun k s =>
      forUpTo (3*j-2) (3*j) (fun l s => markDigit (UInt8.ofNat k) (UInt8.ofNat l) s) s) s
    .ok { s with mask := 0 }) s) ⟨self,0⟩
  .ok s.self

def boardVerify (self : Board) : Checked Board := do
  let self ← boardRowVerify self
  let self ← boardColVerify self
  boardCellVerify self

def gridOf (a : Vector UInt8 boardSize) : Grid := fun r c =>
  (getElem a (cellIndex r c) (cellIndex_lt r c)).toNat-48

def Marks (mask : BitVec 16) (seen : List ℕ) : Prop :=
  ∀ k, mask.getLsbD k = decide (k ≤ 9 ∧ 9-k ∈ seen)

theorem marks_empty : Marks 0 [] := by
  intro k
  simp

theorem signExtend_marks {mask : BitVec 16} {seen : List ℕ} (h : Marks mask seen) (k : ℕ) :
    (mask.signExtend 32).getLsbD k = decide (k ≤ 9 ∧ 9-k ∈ seen) := by
  have hm : mask.msb = false := by rw [BitVec.msb_eq_getLsbD_last, h]; simp
  rw [BitVec.signExtend_eq_setWidth_of_msb_false hm, BitVec.getLsbD_setWidth, h]
  by_cases hk : k < 32
  · simp [hk]
  · simp [hk, show ¬ k ≤ 9 by omega]

theorem shiftedBit_marks {mask : BitVec 16} {seen : List ℕ} (h : Marks mask seen)
    (d : ℕ) (hd : d ≤ 9) : shiftedBit mask (9-(d:ℤ)) = .ok (decide (d ∈ seen)) := by
  have hk : (9-(d:ℤ)).toNat = 9-d := by omega
  rw [shiftedBit, if_pos (by omega), hk, signExtend_marks h]
  simp [show 9-(9-d) = d by omega]

theorem withBit_marks {mask : BitVec 16} {seen : List ℕ} (h : Marks mask seen)
    (d : ℕ) (hd : d ≤ 9) :
    ∃ mask', withBit mask (9-(d:ℤ)) = .ok mask' ∧ Marks mask' (d::seen) := by
  have hk : (9-(d:ℤ)).toNat = 9-d := by omega
  refine ⟨_,if_pos (by omega),?_⟩
  intro k
  rw [hk, BitVec.getLsbD_setWidth, BitVec.getLsbD_or, signExtend_marks h, BitVec.getLsbD_shiftLeft,
    BitVec.getLsbD_one]
  by_cases hk9 : k ≤ 9
  · by_cases hkd : k = 9-d
    · subst hkd
      simp [show 9-(9-d) = d by omega]
      omega
    · simp [hk9, show ¬ 9-k = d by omega, show k < 16 by omega]
      omega
  · simp [hk9]
    omega

def Repeats : List ℕ → List ℕ → Prop
  | _, [] => False
  | seen, d::ds => (d ≠ 0 ∧ d ∈ seen) ∨ Repeats (if d = 0 then seen else d::seen) ds

theorem not_repeats_iff (ds seen : List ℕ) :
    ¬ Repeats seen ds ↔ (ds.filter (· ≠ 0)).Nodup ∧ ∀ d ∈ ds, d ≠ 0 → d ∉ seen := by
  induction ds generalizing seen with
  | nil => simp [Repeats]
  | cons d ds ih =>
    by_cases hd : d = 0
    · simp [Repeats, hd, ih]
    · have hf : (d::ds).filter (· ≠ 0) = d::ds.filter (· ≠ 0) := by simp [hd]
      have hm : d ∈ ds.filter (· ≠ 0) ↔ d ∈ ds := by simp [hd]
      rw [Repeats, if_neg hd, not_or, ih, hf, List.nodup_cons, hm]
      constructor
      · rintro ⟨hs,hn,hd'⟩
        refine ⟨⟨fun h => hd' d h hd (by simp),hn⟩,fun e he hz => ?_⟩
        rcases List.mem_cons.mp he with rfl | he
        · exact fun h => hs ⟨hz,h⟩
        · exact fun h => hd' e he hz (by simp [h])
      · rintro ⟨⟨hnd,hn⟩,hd'⟩
        refine ⟨fun h => hd' d (by simp) hd h.2,hn,fun e he hz h => ?_⟩
        rcases List.mem_cons.mp h with rfl | h
        · exact hnd he
        · exact hd' e (by simp [he]) hz h

theorem repeats_unit (g : Grid) (u : Fin 9 → Cell) :
    Repeats [] ((List.finRange 9).map fun i => g (u i).1 (u i).2) ↔ UnitClash g u := by
  rw [← not_iff_not, not_repeats_iff, List.filter_map,
    List.nodup_map_iff_inj_on ((List.nodup_finRange 9).filter _)]
  simp only [List.mem_filter, List.mem_finRange, true_and, Function.comp_apply,
    decide_eq_true_eq, List.not_mem_nil, not_false_eq_true, implies_true, and_true]
  constructor
  · rintro h ⟨i,j,hij,he,hz⟩
    exact hij (h i hz j (he ▸ hz) he)
  · intro h i hi j hj he
    by_contra hij
    exact h ⟨i,j,hij,he,hi⟩

instance decRepeats : (seen ds : List ℕ) → Decidable (Repeats seen ds)
  | _, [] => inferInstanceAs (Decidable False)
  | seen, d::ds =>
    have := decRepeats (if d = 0 then seen else d::seen) ds
    inferInstanceAs (Decidable (_ ∨ _))

def flag (b : Board) (p : Prop) [Decidable p] : Board :=
  if p then { b with status := .invalid } else b

@[simp] theorem flag_board (b : Board) (p : Prop) [Decidable p] : (flag b p).board = b.board := by
  unfold flag
  split <;> rfl

@[simp] theorem flag_original (b : Board) (p : Prop) [Decidable p] :
    (flag b p).boardOriginal = b.boardOriginal := by
  unfold flag
  split <;> rfl

theorem flag_status (b : Board) (p : Prop) [Decidable p] :
    (flag b p).status = if p then .invalid else b.status := by
  unfold flag
  split <;> rfl

theorem flag_status_ne {b : Board} {p : Prop} [Decidable p]
    (h : b.status ≠ .nonModifiableValue) : (flag b p).status ≠ .nonModifiableValue := by
  rw [flag_status]
  split
  · exact fun h => BoardStatus.noConfusion h
  · exact h

theorem flag_flag (b : Board) (p q : Prop) [Decidable p] [Decidable q] :
    flag (flag b p) q = flag b (p ∨ q) := by
  by_cases hp : p <;> by_cases hq : q <;> simp [flag, hp, hq]

theorem flag_congr (b : Board) {p q : Prop} [Decidable p] [Decidable q] (h : p ↔ q) :
    flag b p = flag b q := by
  simp only [flag, h]

theorem schar_sub_digit {c : UInt8} (h : IsDigit c) : schar c-48 = ((c.toNat-48:ℕ):ℤ) := by
  obtain ⟨hl,hu⟩ := h
  rw [schar_small (by omega)]
  omega

theorem markDigit_digit (s : Scan) (seen : List ℕ) (hm : Marks s.mask seen) (h0 : 0 ∉ seen)
    (r c : Fin 9) (hd : IsDigit (getElem s.self.board (cellIndex r c) (cellIndex_lt r c))) :
    ∃ s', markDigit (ordinal r) (ordinal c) s = .ok s' ∧
      s'.self = flag s.self (gridOf s.self.board r c ≠ 0 ∧ gridOf s.self.board r c ∈ seen) ∧
      Marks s'.mask (if gridOf s.self.board r c = 0 then seen
        else gridOf s.self.board r c::seen) := by
  have hv := schar_sub_digit hd
  have hle : gridOf s.self.board r c ≤ 9 := by have := hd.2; unfold gridOf; omega
  change _ = ((gridOf s.self.board r c:ℕ):ℤ) at hv
  generalize gridOf s.self.board r c = d at hv hle ⊢
  simp only [markDigit, value_get_cell, ok_bind, hv, shiftedBit_marks hm d hle, decide_eq_true_eq]
  by_cases hs : d ∈ seen
  · have hz : d ≠ 0 := fun h => h0 (h ▸ hs)
    refine ⟨_,if_pos hs,by simp [flag, hs, hz],fun k => ?_⟩
    rw [if_neg hz, hm]
    congr 2
    rw [List.mem_cons]
    exact propext ⟨Or.inr,fun h => h.elim (fun h => h ▸ hs) id⟩
  · rw [if_neg hs]
    by_cases hz : d = 0
    · exact ⟨s,by simp [hz],by simp [flag, hz],by simpa [hz] using hm⟩
    · obtain ⟨mask,hw,hm'⟩ := withBit_marks hm d hle
      refine ⟨{ s with mask },?_,by simp [flag, hs],by simpa [hz] using hm'⟩
      rw [if_pos (by exact_mod_cast hz), hw, ok_bind]

theorem scan_cells (cells : List Cell) (s : Scan) (seen : List ℕ) (hm : Marks s.mask seen)
    (h0 : 0 ∉ seen) (hd : DigitCells s.self.board) :
    ∃ s', cells.foldlM (fun s p => markDigit (ordinal p.1) (ordinal p.2) s) s = .ok s' ∧
      s'.self = flag s.self (Repeats seen (cells.map fun p => gridOf s.self.board p.1 p.2)) := by
  induction cells generalizing s seen with
  | nil => exact ⟨s,rfl,by simp [flag, Repeats]⟩
  | cons p cells ih =>
    obtain ⟨s1,h1,hs1,hm1⟩ := markDigit_digit s seen hm h0 p.1 p.2 (hd p.1 p.2)
    have hb : s1.self.board = s.self.board := by rw [hs1, flag_board]
    obtain ⟨s2,h2,hs2⟩ := ih s1 _ hm1 (by split <;> simp [h0]; omega) (by rw [hb]; exact hd)
    refine ⟨s2,?_,?_⟩
    · rw [List.foldlM_cons, h1, ok_bind, h2]
    · rw [hs2, hs1, flag_board, flag_flag]
      rfl

def unitPass (us : List (Fin 9 → Cell)) (s : Scan) : Checked Scan :=
  us.foldlM (fun s u => do
    let s ← (List.finRange 9).foldlM
      (fun s i => markDigit (ordinal (u i).1) (ordinal (u i).2) s) s
    .ok { s with mask := 0 }) s

theorem unitPass_eq (us : List (Fin 9 → Cell)) (b : Board) (hd : DigitCells b.board) :
    unitPass us ⟨b,0⟩ = .ok ⟨flag b (∃ u ∈ us, UnitClash (gridOf b.board) u),0⟩ := by
  induction us generalizing b with
  | nil => simp [unitPass, flag, pure, Except.pure]
  | cons u us ih =>
    obtain ⟨s1,h1,hs1⟩ := scan_cells ((List.finRange 9).map u) ⟨b,0⟩ [] marks_empty (by simp) hd
    rw [List.foldlM_map] at h1
    rw [List.map_map] at hs1
    replace hs1 := hs1.trans (flag_congr b (repeats_unit (gridOf b.board) u))
    have hb : s1.self.board = b.board := by rw [hs1, flag_board]
    rw [unitPass, List.foldlM_cons, h1, ok_bind, ok_bind]
    refine (ih s1.self (by rw [hb]; exact hd)).trans ?_
    rw [hs1, flag_board, flag_flag]
    congr 2
    exact flag_congr b (by simp)

theorem forUpTo_nine {σ : Type} (body : ℕ → σ → Checked σ) (s : σ) :
    forUpTo 1 9 body s = (List.finRange 9).foldlM (fun s k => body (k.val+1) s) s := by
  have hl : List.range' 1 (9+1-1) = (List.finRange 9).map (fun k => k.val+1) := by decide
  rw [forUpTo, hl, List.foldlM_map]

theorem forUpTo_three {σ : Type} (n : ℕ) (body : ℕ → σ → Checked σ) (s : σ) :
    forUpTo (n+1) (n+3) body s = (do
      let s ← body (n+1) s
      let s ← body (n+2) s
      body (n+3) s) := by
  have hl : n+3+1-(n+1) = 3 := by omega
  simp [forUpTo, hl, List.range']

theorem row_units (b : Board) :
    boardRowVerify b = (do
      let s ← unitPass ((List.finRange 9).map rowUnit) ⟨b,0⟩
      .ok s.self) := by
  simp only [boardRowVerify, unitPass, forUpTo_nine, List.foldlM_map]
  rfl

theorem col_units (b : Board) :
    boardColVerify b = (do
      let s ← unitPass ((List.finRange 9).map colUnit) ⟨b,0⟩
      .ok s.self) := by
  simp only [boardColVerify, unitPass, forUpTo_nine, List.foldlM_map]
  rfl

theorem cell_units (b : Board) :
    boardCellVerify b = (do
      let s ← unitPass ((List.finRange 9).map boxUnit) ⟨b,0⟩
      .ok s.self) := by
  have h9 : List.finRange 9 = [0,1,2,3,4,5,6,7,8] := rfl
  have h1 : ∀ body s, forUpTo (σ := Scan) 1 3 body s = _ := forUpTo_three 0
  have h4 : ∀ body s, forUpTo (σ := Scan) 4 6 body s = _ := forUpTo_three 3
  have h7 : ∀ body s, forUpTo (σ := Scan) 7 9 body s = _ := forUpTo_three 6
  simp only [boardCellVerify, unitPass, List.foldlM_map, h9, List.foldlM_cons, List.foldlM_nil,
    h1, h4, h7, bind_assoc, Nat.reduceMul, Nat.reduceSub, Nat.reduceAdd, bind_pure]
  rfl

/-- On a board of digits verification stays inside the board, shifts by
counts in `0..9` only, and marks the board invalid exactly on a conflict. -/
theorem verify_digits (b : Board) (hd : DigitCells b.board) :
    boardVerify b = .ok (flag b (Conflict (gridOf b.board))) := by
  have hp : ∀ us p [Decidable p], unitPass us ⟨flag b p,0⟩ =
      .ok ⟨flag b (p ∨ ∃ u ∈ us, UnitClash (gridOf b.board) u),0⟩ := by
    intro us p _
    rw [unitPass_eq us _ (by simpa using hd), flag_flag]
    simp only [flag_board]
  simp only [boardVerify, row_units, col_units, cell_units, unitPass_eq _ _ hd, ok_bind, hp]
  congr 1
  apply flag_congr
  rw [conflict_iff_clash]
  simp [or_assoc]

/-- Verification changes nothing but the status, which tells whether a nonzero
digit is repeated. A full board without a conflict is solved. -/
theorem verify_decides (b : Board) (hd : DigitCells b.board) (hs : b.status = .ok) :
    ∃ b', boardVerify b = .ok b' ∧ b'.board = b.board ∧ b'.boardOriginal = b.boardOriginal ∧
      (b'.status = .invalid ↔ Conflict (gridOf b.board)) ∧
      (¬ Conflict (gridOf b.board) → b'.status = .ok) ∧
      (b'.status = .ok → (∀ r c : Fin 9, getElem b.board (cellIndex r c) (cellIndex_lt r c) ≠ 48) →
        Solved (gridOf b.board)) := by
  have hstatus := flag_status b (Conflict (gridOf b.board))
  rw [hs] at hstatus
  refine ⟨_,verify_digits b hd,flag_board b _,flag_original b _,?_,?_,?_⟩
  · rw [hstatus]
    split
    · rename_i hc
      simp [hc]
    · rename_i hc
      simp [hc]
  · intro hc
    rw [hstatus, if_neg hc]
  · intro hok hfull
    have hc : ¬ Conflict (gridOf b.board) := by
      intro hc
      rw [hstatus, if_pos hc] at hok
      cases hok
    apply solved_of_no_conflict hc
    intro r c
    obtain ⟨hl,hu⟩ := hd r c
    have hne : b.board[cellIndex r c].toNat ≠ 48 := fun h => hfull r c (UInt8.toNat_inj.mp h)
    simp only [gridOf]
    omega

/-- A solved board, and the same board with the digit of one cell put into its neighbour. -/
theorem verify_decides_shifted :
    (∃ b', boardVerify ⟨shiftedCells,shiftedCells,.ok⟩ = .ok b' ∧ b'.status = .ok ∧
      Solved (gridOf shiftedCells)) ∧
    ∃ b', boardVerify ⟨shiftedBut 0 1 49,shiftedCells,.ok⟩ = .ok b' ∧ b'.status = .invalid := by
  have hdigits : DigitCells (shiftedBut 0 1 49) := by decide +kernel
  have horder : ¬ Conflict (gridOf shiftedCells) := by decide +kernel
  have hfull : ∀ r c, getElem shiftedCells (cellIndex r c) (cellIndex_lt r c) ≠ 48 := by
    decide +kernel
  have hclash : Conflict (gridOf (shiftedBut 0 1 49)) :=
    ⟨(0,0),(0,1),by decide,.inl rfl,by decide +kernel,by decide +kernel⟩
  constructor
  · obtain ⟨b',hv,-,-,-,hok,hsolved⟩ :=
      verify_decides ⟨shiftedCells,shiftedCells,.ok⟩ shiftedCells_digits rfl
    have hstatus := hok horder
    exact ⟨b',hv,hstatus,hsolved hstatus hfull⟩
  · obtain ⟨b',hv,-,-,hinvalid,-⟩ :=
      verify_decides ⟨shiftedBut 0 1 49,shiftedCells,.ok⟩ hdigits rfl
    exact ⟨b',hv,hinvalid.mpr hclash⟩

end Workshop.SudokuVerify
