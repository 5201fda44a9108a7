import Mathlib

/-!
# Byte strings and checked array accesses of C

A C array of `n` chars is a vector of bytes. An access outside it, a shift by
an unrepresentable amount and the use of a null pointer are undefined
behaviour, and each is an explicit fault here, as are the two misuses of the
C++ containers that the servers are open to. A computation which ends without
a fault has therefore stayed inside its arrays.
-/

set_option autoImplicit false

namespace Workshop.CMemory

abbrev Text := List UInt8

def text (s : String) : Text := s.toUTF8.data.toList

inductive Fault where
  | outOfBounds
  | nullPointer
  | badShift
  | emptyText
  | endIterator
  deriving DecidableEq, Repr

/-- Why a program does not return: undefined behaviour, a C++ exception, or a
loop that is still running when the bound on its iterations is used up. -/
inductive Halt where
  | fault (f : Fault)
  | thrown
  | running
  deriving DecidableEq, Repr

abbrev Checked := Except Fault

@[simp] theorem ok_bind {ε α β : Type} (a : α) (f : α → Except ε β) :
    ((Except.ok a : Except ε α) >>= f) = f a := rfl

@[simp] theorem error_bind {ε α β : Type} (e : ε) (f : α → Except ε β) :
    ((Except.error e : Except ε α) >>= f) = .error e := rfl

theorem ok_ne_error {ε α : Type} (a : α) (e : ε) : (Except.ok a : Except ε α) ≠ .error e := nofun

theorem bind_eq_ok {ε α β : Type} {x : Except ε α} {f : α → Except ε β} {b : β}
    (h : x >>= f = .ok b) : ∃ a, x = .ok a ∧ f a = .ok b := by
  cases x with
  | error e => cases h
  | ok a => exact ⟨a,rfl,h⟩

/-- The numeric value of a `char`, which is signed on the target. -/
def schar (c : UInt8) : ℤ := c.toInt8.toInt

theorem schar_small {c : UInt8} (h : c.toNat < 128) : schar c = c.toNat := by
  have hb : c.toInt8.toInt = c.toBitVec.toInt := rfl
  rw [schar, hb, BitVec.toInt_eq_toNat_of_lt (by simpa using by omega)]
  simp

/-- The conversion of a `size_t` to `int`. -/
def narrow (k : ℕ) : ℤ := (BitVec.ofNat 32 k).toInt

theorem narrow_small {k : ℕ} (h : k < 2^31) : narrow k = k := by
  rw [narrow, BitVec.toInt_eq_toNat_of_lt (by rw [BitVec.toNat_ofNat]; omega),
    BitVec.toNat_ofNat, Nat.mod_eq_of_lt (by omega)]

theorem narrow_wraps {k : ℕ} (h : 2^31 ≤ k) (h' : k < 2^32) : narrow k = k-2^32 := by
  rw [narrow, BitVec.toInt_eq_toNat_cond, BitVec.toNat_ofNat, Nat.mod_eq_of_lt h',
    if_neg (by omega)]
  norm_num

theorem narrow_lt (k : ℕ) : narrow k < 2^31 := by
  have hlt := BitVec.toInt_lt (x := BitVec.ofNat 32 k)
  rw [narrow]
  norm_num at hlt ⊢
  omega

section Arrays
variable {n : ℕ}

def fetch (a : Vector UInt8 n) (k : ℤ) : Checked UInt8 :=
  if h : 0 ≤ k ∧ k.toNat < n then .ok a[k.toNat] else .error .outOfBounds

def store (a : Vector UInt8 n) (k : ℤ) (c : UInt8) : Checked (Vector UInt8 n) :=
  if h : 0 ≤ k ∧ k.toNat < n then .ok (a.set k.toNat c) else .error .outOfBounds

theorem fetch_nat (a : Vector UInt8 n) (k : ℕ) (h : k < n) :
    fetch a (k:ℤ) = .ok a[k] := by
  simp [fetch, h]

theorem store_nat (a : Vector UInt8 n) (k : ℕ) (h : k < n) (c : UInt8) :
    store a (k:ℤ) c = .ok (a.set k c) := by
  simp [store, h]

theorem store_fault (a : Vector UInt8 n) (k : ℤ) (h : ¬(0 ≤ k ∧ k.toNat < n)) (c : UInt8) :
    store a k c = .error .outOfBounds := by
  simp only [store, dif_neg h]

theorem fetch_fault (a : Vector UInt8 n) (k : ℤ) (h : ¬(0 ≤ k ∧ k.toNat < n)) :
    fetch a k = .error .outOfBounds := by
  simp only [fetch, dif_neg h]

def storeAll (a : Vector UInt8 n) (k : ℤ) : Text → Checked (Vector UInt8 n)
  | [] => .ok a
  | c::cs => do
    let a ← store a k c
    storeAll a (k+1) cs

theorem storeAll_append (a : Vector UInt8 n) (k : ℤ) (cs ds : Text) :
    storeAll a k (cs++ds) = storeAll a k cs >>= fun a => storeAll a (k+cs.length) ds := by
  induction cs generalizing a k with
  | nil => simp [storeAll]
  | cons c cs ih =>
    rw [List.cons_append, storeAll, storeAll]
    rcases store a k c with e | b
    · rfl
    · rw [ok_bind, ok_bind, ih, List.length_cons]
      simp only [Nat.cast_add, Nat.cast_one, add_assoc, add_comm (1:ℤ)]

def overwrite (a : Vector UInt8 n) (k : ℕ) (cs : Text) : Vector UInt8 n :=
  Vector.ofFn fun i => if k ≤ i.val ∧ i.val < k+cs.length then cs.getD (i-k) 0 else a[i]

theorem overwrite_get (a : Vector UInt8 n) (k : ℕ) (cs : Text) (i : ℕ) (hi : i < n) :
    (overwrite a k cs)[i] = if k ≤ i ∧ i < k+cs.length then cs.getD (i-k) 0 else a[i] := by
  simp [overwrite]

theorem overwrite_nil (a : Vector UInt8 n) (k : ℕ) : overwrite a k [] = a := by
  apply Vector.ext
  intro i hi
  rw [overwrite_get, if_neg (by simp)]

theorem storeAll_fits (a : Vector UInt8 n) (k : ℕ) (cs : Text) (h : k+cs.length ≤ n) :
    storeAll a (k:ℤ) cs = .ok (overwrite a k cs) := by
  induction cs generalizing a k with
  | nil => rw [storeAll, overwrite_nil]
  | cons c cs ih =>
    rw [List.length_cons] at h
    rw [storeAll, store_nat a k (by omega), ok_bind]
    have hk : (k:ℤ)+1 = ((k+1:ℕ):ℤ) := by simp
    rw [hk, ih _ (k+1) (by omega)]
    congr 1
    apply Vector.ext
    intro i hi
    rw [overwrite_get, overwrite_get, List.length_cons, Vector.getElem_set]
    rcases lt_trichotomy k i with hlt | rfl | hgt
    · have hsub : i-k = (i-(k+1))+1 := by omega
      have hiff : (k+1 ≤ i ∧ i < k+1+cs.length) ↔ (k ≤ i ∧ i < k+(cs.length+1)) := by omega
      simp only [hsub, List.getD_cons_succ, hlt.ne, if_false, hiff]
    · simp
    · rw [if_neg (by omega), if_neg (by omega), if_neg (by omega)]

theorem storeAll_overrun (a : Vector UInt8 n) (k : ℕ) (cs : Text) (hk : k ≤ n)
    (h : n < k+cs.length) : storeAll a (k:ℤ) cs = .error .outOfBounds := by
  induction cs generalizing a k with
  | nil =>
    rw [List.length_nil] at h
    omega
  | cons c cs ih =>
    rw [List.length_cons] at h
    rw [storeAll]
    by_cases hlt : k < n
    · have hnext : (k:ℤ)+1 = ((k+1:ℕ):ℤ) := by simp
      rw [store_nat a k hlt, ok_bind, hnext]
      exact ih _ (k+1) (by omega) (by omega)
    · rw [store_fault a k (by omega)]
      rfl

theorem overwrite_toList (a : Vector UInt8 n) (cs : Text) (h : cs.length ≤ n) :
    (overwrite a 0 cs).toList = cs++a.toList.drop cs.length := by
  apply List.ext_getElem
  · simp
    omega
  · intro i h1 h2
    have hi : i < n := by simpa using h1
    rw [Vector.getElem_toList, overwrite_get a 0 cs i hi]
    by_cases hc : i < cs.length
    · rw [if_pos (by omega), List.getElem_append_left hc, Nat.sub_zero,
        List.getD_eq_getElem cs 0 hc]
    · rw [if_neg (by omega), List.getElem_append_right (by omega), List.getElem_drop,
        Vector.getElem_toList]
      simp only [Nat.add_sub_cancel' (Nat.le_of_not_lt hc)]

/-- The bytes before the first NUL. Without a NUL the scan leaves the array. -/
def cString (a : Vector UInt8 n) : Checked Text :=
  if (0:UInt8) ∈ a.toList then .ok (a.toList.takeWhile (· ≠ 0)) else .error .outOfBounds

theorem takeWhile_nul (s rest : Text) :
    (s++0::rest).takeWhile (· ≠ 0) = s.takeWhile (· ≠ 0) := by
  induction s with
  | nil => rfl
  | cons c cs ih =>
    rw [List.cons_append, List.takeWhile_cons, List.takeWhile_cons, ih]

theorem takeWhile_string {s : Text} (h : (0:UInt8) ∉ s) : s.takeWhile (· ≠ 0) = s := by
  apply List.takeWhile_eq_self_iff.mpr
  intro c hc
  exact decide_eq_true fun he => h (he ▸ hc)

theorem cString_terminated {a : Vector UInt8 n} {s rest : Text} (ha : a.toList = s++0::rest) :
    cString a = .ok (s.takeWhile (· ≠ 0)) := by
  have hmem : (0:UInt8) ∈ a.toList := by simp [ha]
  rw [cString, if_pos hmem, ha, takeWhile_nul]

theorem cString_eq {a : Vector UInt8 n} {s rest : Text} (ha : a.toList = s++0::rest)
    (h : (0:UInt8) ∉ s) : cString a = .ok s := by
  rw [cString_terminated ha, takeWhile_string h]

theorem terminated_split {l : Text} (h : (0:UInt8) ∈ l) :
    ∃ rest, l = l.takeWhile (· ≠ 0) ++ 0::rest := by
  induction l with
  | nil => simp at h
  | cons c cs ih =>
    by_cases hc : c = 0
    · exact ⟨cs,by simp [hc]⟩
    · obtain ⟨rest,hr⟩ := ih ((List.mem_cons.mp h).resolve_left (fun h => hc h.symm))
      refine ⟨rest,?_⟩
      rw [List.takeWhile_cons_of_pos (by simpa using hc), List.cons_append, ← hr]

/-- `snprintf(a, n, "%s", s)`: at most `n-1` bytes and a NUL are written, the
bytes behind that NUL are left alone. -/
def snprintf (a : Vector UInt8 n) (s : Text) : Vector UInt8 n :=
  Vector.ofFn fun i => if i.val < min s.length (n-1) then s.getD i 0
    else if i.val = min s.length (n-1) then 0 else a[i]

theorem snprintf_get (a : Vector UInt8 n) (s : Text) (i : ℕ) (hi : i < n) :
    (snprintf a s)[i] = if i < min s.length (n-1) then s.getD i 0
      else if i = min s.length (n-1) then 0 else a[i] := by
  simp [snprintf]

theorem snprintf_toList (a : Vector UInt8 n) (s : Text) (h : s.length < n) :
    (snprintf a s).toList = s++0::a.toList.drop (s.length+1) := by
  have hmin : min s.length (n-1) = s.length := by omega
  apply List.ext_getElem
  · simp
    omega
  · intro i h1 h2
    have hi : i < n := by simpa using h1
    rw [Vector.getElem_toList, snprintf_get a s i hi, hmin]
    rcases lt_trichotomy i s.length with hlt | rfl | hgt
    · rw [if_pos hlt, List.getElem_append_left hlt, List.getD_eq_getElem s 0 hlt]
    · simp
    · obtain ⟨j,rfl⟩ : ∃ j, i = s.length+1+j := ⟨i-s.length-1,by omega⟩
      have hj : s.length+1+j-s.length = j+1 := by omega
      rw [if_neg (by omega), if_neg (by omega), List.getElem_append_right (by omega)]
      simp only [hj, List.getElem_cons_succ, List.getElem_drop, Vector.getElem_toList]

theorem snprintf_string (a b : Vector UInt8 n) (h : 0 ∈ b.toList) (k : ℕ) (hk : k < n) :
    (snprintf a (b.toList.takeWhile (· ≠ 0)))[k] =
      if k ≤ (b.toList.takeWhile (· ≠ 0)).length then b[k] else a[k] := by
  obtain ⟨rest,hr⟩ := terminated_split h
  generalize b.toList.takeWhile (· ≠ 0) = s at hr ⊢
  have hlen : s.length+(rest.length+1) = n := by
    simpa using (congrArg List.length hr).symm
  have hb : b[k] = (s ++ 0::rest).getD k 0 := by
    rw [← hr, List.getD_eq_getElem _ _ (by simpa using hk)]
    simp
  rw [snprintf_get, hb, show min s.length (n-1) = s.length by omega]
  rcases lt_trichotomy k s.length with hlt | rfl | hgt
  · rw [if_pos hlt, if_pos hlt.le, List.getD_append _ _ _ _ hlt]
  · rw [if_neg (lt_irrefl _), if_pos rfl, if_pos le_rfl, List.getD_append_right _ _ _ _ le_rfl]
    simp
  · rw [if_neg (by omega), if_neg (by omega), if_neg (by omega)]

end Arrays

/-- `(word >> count) & 1` on a `short`, which is promoted to `int` first. -/
def shiftedBit (word : BitVec 16) (count : ℤ) : Checked Bool :=
  if 0 ≤ count ∧ count < 32 then .ok ((word.signExtend 32).getLsbD count.toNat)
  else .error .badShift

/-- `word | (1 << count)` stored back into the `short`. -/
def withBit (word : BitVec 16) (count : ℤ) : Checked (BitVec 16) :=
  if 0 ≤ count ∧ count < 32 then
    .ok (((word.signExtend 32) ||| ((1#32) <<< count.toNat)).setWidth 16)
  else .error .badShift

/-- A counting loop `for (i = first; i <= last; i++)` whose body may fault. -/
def forUpTo {σ : Type} (first last : ℕ) (body : ℕ → σ → Checked σ) (s : σ) : Checked σ :=
  (List.range' first (last+1-first)).foldlM (fun s i => body i s) s

end Workshop.CMemory
