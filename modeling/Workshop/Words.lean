import Mathlib

/-!
# Words between separators

The words of a list are its longest pieces without a separator that are not
empty. A list starts with separators, and then it is at its end or at a word.
-/

set_option autoImplicit false

namespace Workshop.Words

variable {α : Type} [DecidableEq α] (sep : α)

def words (l : List α) : List (List α) := (l.splitOn sep).filter (· ≠ [])

@[simp] theorem words_nil : words sep [] = [] := by
  simp [words]

theorem words_append (l m : List α) : words sep (l++sep::m) = words sep l++words sep m := by
  rw [words, List.splitOn_append_cons_self, List.filter_append]
  rfl

theorem words_separators (k : ℕ) (l : List α) :
    words sep (List.replicate k sep++l) = words sep l := by
  induction k with
  | zero => rfl
  | succ k ih =>
    have hcons := words_append sep [] (List.replicate k sep++l)
    rw [words_nil, List.nil_append, List.nil_append] at hcons
    rw [List.replicate_succ, List.cons_append, hcons, ih]

variable {sep}

theorem words_last {w : List α} (hw : w ≠ []) (h : sep ∉ w) : words sep w = [w] := by
  rw [words, List.splitOn_eq_singleton h, List.filter_cons_of_pos (by simpa using hw),
    List.filter_nil]

theorem words_cons {w : List α} (hw : w ≠ []) (h : sep ∉ w) (l : List α) :
    words sep (w++sep::l) = w::words sep l := by
  rw [words_append, words_last hw h]
  rfl

theorem skip_separators {l : List α} (h : ∃ c ∈ l, c ≠ sep) :
    ∃ k c cs, c ≠ sep ∧ l = List.replicate k sep++c::cs := by
  induction l with
  | nil => simp at h
  | cons c cs ih =>
    by_cases hc : c = sep
    · obtain ⟨x,hx,hne⟩ := h
      have hmem : x ∈ cs := (List.mem_cons.mp hx).resolve_left fun he => hne (he.trans hc)
      obtain ⟨k,x',xs,hx',hcs⟩ := ih ⟨x,hmem,hne⟩
      refine ⟨k+1,x',xs,hx',?_⟩
      rw [hc, hcs]
      rfl
    · exact ⟨0,c,cs,hc,rfl⟩

theorem words_cases (sep : α) (l : List α) :
    (∃ k, l = List.replicate k sep) ∨
      ∃ k w, w ≠ [] ∧ sep ∉ w ∧ (l = List.replicate k sep++w ∨
        ∃ rest, l = List.replicate k sep++(w++sep::rest)) := by
  by_cases h : ∃ c ∈ l, c ≠ sep
  · obtain ⟨k,c,cs,hc,rfl⟩ := skip_separators h
    by_cases hcs : sep ∈ cs
    · obtain ⟨w,rest,rfl,hw⟩ := List.eq_append_cons_of_mem hcs
      exact .inr ⟨k,c::w,by simp,by simp [Ne.symm hc, hw],.inr ⟨rest,rfl⟩⟩
    · exact .inr ⟨k,c::cs,by simp,by simp [Ne.symm hc, hcs],.inl rfl⟩
  · have hall : ∀ c ∈ l, c = sep := fun c hc => by_contra fun hne => h ⟨c,hc,hne⟩
    exact .inl ⟨l.length,List.eq_replicate_of_mem hall⟩

end Workshop.Words
