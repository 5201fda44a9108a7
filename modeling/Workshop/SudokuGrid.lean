import Mathlib

/-!
# Sudoku grids

A grid is a nine by nine matrix of digits in which zero marks an empty cell.
A conflict is a repeated nonzero digit in one row, one column or one box.
The nine rows, columns and boxes are the units of the grid, and a conflict is
a clash inside some unit.
-/

set_option autoImplicit false

namespace Workshop.SudokuGrid

abbrev Cell := Fin 9 × Fin 9
abbrev Grid := Fin 9 → Fin 9 → ℕ

def SameBox (p q : Cell) : Prop :=
  p.1.val/3 = q.1.val/3 ∧ p.2.val/3 = q.2.val/3

instance (p q : Cell) : Decidable (SameBox p q) := inferInstanceAs (Decidable (_ ∧ _))

def Conflict (g : Grid) : Prop :=
  ∃ p q : Cell, p ≠ q ∧ (p.1 = q.1 ∨ p.2 = q.2 ∨ SameBox p q) ∧
    g p.1 p.2 = g q.1 q.2 ∧ g p.1 p.2 ≠ 0

instance (g : Grid) : Decidable (Conflict g) := inferInstanceAs (Decidable (∃ _ _, _))

def rowUnit (r i : Fin 9) : Cell := (r,i)
def colUnit (c i : Fin 9) : Cell := (i,c)

def boxUnit (b i : Fin 9) : Cell :=
  (⟨3*(b.val/3)+i.val/3, by have := b.isLt; have := i.isLt; omega⟩,
   ⟨3*(b.val%3)+i.val%3, by have := b.isLt; have := i.isLt; omega⟩)

def UnitClash (g : Grid) (u : Fin 9 → Cell) : Prop :=
  ∃ i j, i ≠ j ∧ g (u i).1 (u i).2 = g (u j).1 (u j).2 ∧ g (u i).1 (u i).2 ≠ 0

instance (g : Grid) (u : Fin 9 → Cell) : Decidable (UnitClash g u) :=
  inferInstanceAs (Decidable (∃ _ _, _))

theorem boxUnit_injective (b : Fin 9) : Function.Injective (boxUnit b) := by
  intro i j h
  have h1 : 3*(b.val/3)+i.val/3 = 3*(b.val/3)+j.val/3 := congrArg (fun p : Cell => p.1.val) h
  have h2 : 3*(b.val%3)+i.val%3 = 3*(b.val%3)+j.val%3 := congrArg (fun p : Cell => p.2.val) h
  exact Fin.ext (by omega)

theorem boxUnit_sameBox (b i j : Fin 9) : SameBox (boxUnit b i) (boxUnit b j) := by
  have := i.isLt
  have := j.isLt
  simp only [SameBox, boxUnit]
  omega

theorem exists_boxUnit (p q : Cell) (h : SameBox p q) :
    ∃ b i j, boxUnit b i = p ∧ boxUnit b j = q := by
  obtain ⟨⟨r,hr⟩,⟨c,hc⟩⟩ := p
  obtain ⟨⟨r',hr'⟩,⟨c',hc'⟩⟩ := q
  simp only [SameBox] at h
  refine ⟨⟨3*(r/3)+c/3,by omega⟩,⟨3*(r%3)+c%3,by omega⟩,⟨3*(r'%3)+c'%3,by omega⟩,?_,?_⟩ <;>
    simp only [boxUnit, Prod.mk.injEq, Fin.mk.injEq] <;> omega

theorem conflict_of_clash {g : Grid} {u : Fin 9 → Cell} (hu : Function.Injective u)
    (hs : ∀ i j, (u i).1 = (u j).1 ∨ (u i).2 = (u j).2 ∨ SameBox (u i) (u j))
    (h : UnitClash g u) : Conflict g := by
  obtain ⟨i,j,hij,he,hz⟩ := h
  exact ⟨u i,u j,fun hp => hij (hu hp),hs i j,he,hz⟩

/-- The three passes together see every conflict and nothing else. -/
theorem conflict_iff_clash (g : Grid) :
    Conflict g ↔ (∃ r, UnitClash g (rowUnit r)) ∨ (∃ c, UnitClash g (colUnit c)) ∨
      ∃ b, UnitClash g (boxUnit b) := by
  constructor
  · rintro ⟨⟨r,c⟩,⟨r',c'⟩,hne,hs,he,hz⟩
    rcases hs with hr | hc | hb
    · obtain rfl : r = r' := hr
      exact Or.inl ⟨r,c,c',fun h => hne (by rw [h]),he,hz⟩
    · obtain rfl : c = c' := hc
      exact Or.inr (Or.inl ⟨c,r,r',fun h => hne (by rw [h]),he,hz⟩)
    · obtain ⟨b,i,j,hi,hj⟩ := exists_boxUnit _ _ hb
      refine Or.inr (Or.inr ⟨b,i,j,?_,?_,?_⟩)
      · rintro rfl
        exact hne (hi.symm.trans hj)
      · rw [hi, hj]
        exact he
      · rw [hi]
        exact hz
  · rintro (⟨r,h⟩ | ⟨c,h⟩ | ⟨b,h⟩)
    · exact conflict_of_clash (fun i j h => congrArg Prod.snd h) (fun _ _ => Or.inl rfl) h
    · exact conflict_of_clash (fun i j h => congrArg Prod.fst h) (fun _ _ => Or.inr (Or.inl rfl)) h
    · exact conflict_of_clash (boxUnit_injective b)
        (fun i j => Or.inr (Or.inr (boxUnit_sameBox b i j))) h

def Solved (g : Grid) : Prop := ∀ d, 1 ≤ d → d ≤ 9 →
  (∀ r, ∃! i, g (rowUnit r i).1 (rowUnit r i).2 = d) ∧
  (∀ c, ∃! i, g (colUnit c i).1 (colUnit c i).2 = d) ∧
  ∀ b, ∃! i, g (boxUnit b i).1 (boxUnit b i).2 = d

theorem unit_complete {g : Grid} {u : Fin 9 → Cell} (h : ¬ UnitClash g u)
    (hg : ∀ r c, 1 ≤ g r c ∧ g r c ≤ 9) {d : ℕ} (h1 : 1 ≤ d) (h9 : d ≤ 9) :
    ∃! i, g (u i).1 (u i).2 = d := by
  have hinj : Function.Injective fun i => (⟨g (u i).1 (u i).2-1,by
      have := hg (u i).1 (u i).2
      omega⟩ : Fin 9) := by
    intro i j hij
    by_contra hne
    have hv : g (u i).1 (u i).2-1 = g (u j).1 (u j).2-1 := congrArg Fin.val hij
    have hi := hg (u i).1 (u i).2
    have hj := hg (u j).1 (u j).2
    exact h ⟨i,j,hne,by omega,by omega⟩
  obtain ⟨i,hi⟩ := (Finite.injective_iff_surjective.mp hinj) ⟨d-1,by omega⟩
  have hd : g (u i).1 (u i).2 = d := by
    have hv : g (u i).1 (u i).2-1 = d-1 := congrArg Fin.val hi
    have := hg (u i).1 (u i).2
    omega
  refine ⟨i,hd,?_⟩
  intro j hj
  by_contra hne
  exact h ⟨j,i,hne,hj.trans hd.symm,by omega⟩

theorem solved_of_no_conflict {g : Grid} (h : ¬ Conflict g) (hg : ∀ r c, 1 ≤ g r c ∧ g r c ≤ 9) :
    Solved g := by
  rw [conflict_iff_clash] at h
  simp only [not_or, not_exists] at h
  intro d h1 h9
  exact ⟨fun r => unit_complete (h.1 r) hg h1 h9,fun c => unit_complete (h.2.1 c) hg h1 h9,
    fun b => unit_complete (h.2.2 b) hg h1 h9⟩

end Workshop.SudokuGrid
