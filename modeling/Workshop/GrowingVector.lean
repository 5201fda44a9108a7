import Mathlib

/-!
# Vectors that move when they grow

A vector keeps its elements in a block of memory. When the block is full, an
append moves them all to a new block, and every address into the old one is
lost. Nothing else moves an element.
-/

set_option autoImplicit false

namespace Workshop.GrowingVector

structure Address where
  block : ℕ
  index : ℕ
  deriving DecidableEq, Repr

structure Growing (α : Type) where
  elems : List α
  block : ℕ
  capacity : ℕ
  fits : elems.length ≤ capacity

variable {α : Type}

namespace Growing

def Full (v : Growing α) : Prop := v.elems.length = v.capacity

instance (v : Growing α) : Decidable v.Full := inferInstanceAs (Decidable (_ = _))

def filled (n : ℕ) (a : α) : Growing α :=
  ⟨List.replicate n a,0,n,List.length_replicate.le⟩

/-- `emplace_back`, which doubles the capacity of a full block. -/
def emplaceBack (v : Growing α) (a : α) : Growing α :=
  if h : v.Full then
    ⟨v.elems++[a],v.block+1,v.capacity+max v.capacity 1,by
      have : v.elems.length = v.capacity := h
      rw [List.length_append, List.length_singleton]
      omega⟩
  else
    ⟨v.elems++[a],v.block,v.capacity,by
      have := lt_of_le_of_ne v.fits h
      rw [List.length_append, List.length_singleton]
      omega⟩

def back (v : Growing α) : Address := ⟨v.block,v.elems.length-1⟩

/-- The element at an address, unless the address is lost. -/
def fetch (v : Growing α) (p : Address) : Option α :=
  if p.block = v.block then v.elems[p.index]? else none

def assign (v : Growing α) (i : ℕ) (a : α) : Growing α :=
  ⟨v.elems.set i a,v.block,v.capacity,by rw [List.length_set]; exact v.fits⟩

variable (v : Growing α) (a : α)

@[simp] theorem emplaceBack_elems : (v.emplaceBack a).elems = v.elems++[a] := by
  rw [emplaceBack]
  split <;> rfl

theorem emplaceBack_block :
    (v.emplaceBack a).block = if v.Full then v.block+1 else v.block := by
  rw [emplaceBack]
  split <;> rfl

theorem emplaceBack_capacity :
    (v.emplaceBack a).capacity = if v.Full then v.capacity+max v.capacity 1 else v.capacity := by
  rw [emplaceBack]
  split <;> rfl

theorem block_le_emplaceBack : v.block ≤ (v.emplaceBack a).block := by
  rw [emplaceBack_block]
  split <;> omega

theorem fetch_back : (v.emplaceBack a).fetch (v.emplaceBack a).back = some a := by
  rw [fetch, back, if_pos rfl, emplaceBack_elems]
  simp

theorem elems_emplaceBack {i : ℕ} {x : α} (h : v.elems[i]? = some x) :
    (v.emplaceBack a).elems[i]? = some x := by
  rw [emplaceBack_elems, List.getElem?_append_left (List.getElem?_eq_some_iff.mp h).1, h]

variable {v a}

theorem emplaceBack_cases {i : ℕ} {x : α} (h : (v.emplaceBack a).elems[i]? = some x) :
    v.elems[i]? = some x ∨ i = (v.emplaceBack a).back.index ∧ x = a := by
  rw [emplaceBack_elems, List.getElem?_append] at h
  split at h
  · exact .inl h
  · have hlast : i-v.elems.length = 0 := by
      have hlt := (List.getElem?_eq_some_iff.mp h).1
      rw [List.length_singleton] at hlt
      omega
    rw [hlast] at h
    refine .inr ⟨?_,(Option.some.inj h).symm⟩
    show i = (v.emplaceBack a).elems.length-1
    rw [emplaceBack_elems, List.length_append, List.length_singleton]
    omega

theorem fetch_some {p : Address} {x : α} :
    v.fetch p = some x ↔ p.block = v.block ∧ v.elems[p.index]? = some x := by
  rw [fetch]
  split
  · rename_i h
    simp [h]
  · rename_i h
    simp [h]

theorem fetch_moved {p : Address} (hfull : v.Full) (hp : p.block ≤ v.block) :
    (v.emplaceBack a).fetch p = none := by
  rw [fetch, emplaceBack_block, if_pos hfull, if_neg (by omega)]

theorem elems_assign_ne {i j : ℕ} (h : i ≠ j) : (v.assign i a).elems[j]? = v.elems[j]? := by
  rw [assign, List.getElem?_set_ne h]

theorem mem_assign {i j : ℕ} {x : α} (h : (v.assign i a).elems[j]? = some x) :
    (j = i ∧ x = a) ∨ (j ≠ i ∧ v.elems[j]? = some x) := by
  by_cases hij : j = i
  · subst hij
    rw [assign, List.getElem?_set] at h
    split at h
    · split at h
      · exact .inl ⟨rfl,(Option.some.inj h).symm⟩
      · cases h
    · exact absurd rfl ‹¬ _›
  · rw [elems_assign_ne (Ne.symm hij)] at h
    exact .inr ⟨hij,h⟩

end Growing

end Workshop.GrowingVector
