import Workshop.FtpCommand

/-!
# The shared set of directories

A `std::set` of strings is a finite set with the byte order of the strings.
Each operation runs under the mutex of the set. `directories_size` converts
the number of elements to `int`.
-/

set_option autoImplicit false

namespace Workshop.FtpDirectories
open Workshop.CMemory Workshop.FtpConfig Workshop.FtpCommand

scoped instance byteOrder : LinearOrder UInt8 where
  le_refl := UInt8.le_refl
  le_trans _ _ _ := UInt8.le_trans
  le_antisymm _ _ := UInt8.le_antisymm
  le_total := UInt8.le_total
  lt_iff_le_not_ge a b := by
    rw [UInt8.lt_iff_toNat_lt, UInt8.le_iff_toNat_le, UInt8.le_iff_toNat_le]
    omega
  toDecidableLE := inferInstance

abbrev Directories := Finset Text

def dirFormat : Text := text "drwxrwxrwx 0 1000 1000 4096 Sep 24 12:34 "

def addDirectory (directories : Directories) (directory : Text) : Bool × Directories :=
  if directory ∉ directories then (true,insert directory directories) else (false,directories)

def removeDirectory (directories : Directories) (directory : Text) : Bool × Directories :=
  if directory ∈ directories then (true,directories.erase directory) else (false,directories)

theorem addDirectory_eq (s : Directories) (d : Text) :
    addDirectory s d = (decide (d ∉ s),insert d s) := by
  by_cases hd : d ∈ s <;> simp [addDirectory, hd]

theorem removeDirectory_eq (s : Directories) (d : Text) :
    removeDirectory s d = (decide (d ∈ s),s.erase d) := by
  by_cases hd : d ∈ s <;> simp [removeDirectory, hd]

/-- The names in the order of the set. -/
def ordered (directories : Directories) : List Text := directories.sort (· ≤ ·)

def getList (directories : Directories) : Text :=
  (ordered directories).flatMap fun directory => dirFormat++directory

def directoriesSize (directories : Directories) : ℤ := narrow directories.card

@[simp] theorem mem_ordered {d : Text} {directories : Directories} :
    d ∈ ordered directories ↔ d ∈ directories := by
  simp [ordered]

theorem getList_length (directories : Directories) :
    directories.card ≤ (getList directories).length := by
  have hcard : (ordered directories).length = directories.card := by simp [ordered]
  rw [← hcard, getList]
  generalize ordered directories = names
  induction names with
  | nil => simp
  | cons d names ih =>
    have hpos : 0 < dirFormat.length := by decide
    simp only [List.flatMap_cons, List.length_append, List.length_cons]
    omega

@[simp] theorem getList_empty : getList ∅ = [] := by
  simp [getList, ordered]

@[simp] theorem getList_singleton (d : Text) : getList {d} = dirFormat++d := by
  simp [getList, ordered]

def listingSize (s : Directories) : ℕ := ∑ d ∈ s, (dirFormat.length+d.length)

theorem getList_size (s : Directories) : (getList s).length = listingSize s := by
  rw [getList, List.length_flatMap, listingSize]
  simp only [List.length_append]
  rw [← Finset.sum_map_toList, ordered]
  exact ((Finset.sort_perm_toList s _).map _).sum_eq

end Workshop.FtpDirectories
