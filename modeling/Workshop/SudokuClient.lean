import Workshop.SudokuServer
import Workshop.SudokuStrings
import Workshop.Words

/-!
# The command line of the sudoku client

A line is copied into a short buffer, where `strtok_r` cuts the words of a put.
The other commands are compared with the line as a whole. A line is accepted
exactly when it has one of six forms.
-/

set_option autoImplicit false

namespace Workshop.SudokuClient
open Workshop.CMemory Workshop.InteractiveProgram Workshop.ByteChannel
open Workshop.SudokuBoard Workshop.SudokuServer Workshop.SudokuProtocol Workshop.SudokuStrings
open Workshop.Words

def errorIndex : Text := text "Error en los índices. Rango soportado: [1,9]\n"
def errorInvalidPutCommand : Text := text "Sintaxis: put <numero> in <fila>,<columna>"
def errorInputVal : Text := text "Error en el valor ingresado. Rango soportado: [1,9]\n"
def errorInvalidCommand : Text := text "Ingrese:\n-put\n-verify\n-get\n-reset\n-exit\n"

abbrev maxInput : ℕ := 20
abbrev maxCommandLength : ℕ := 20
def delimiter : UInt8 := 32

inductive ClientStatus where
  | ok
  | commandValid
  | commandInvalid
  | endgame
  | connected
  | eofReached
  | invalidIndex
  deriving DecidableEq, Repr

structure Client where
  command : UInt8
  row : UInt8
  col : UInt8
  value : UInt8
  status : ClientStatus
  deriving DecidableEq, Repr

/-- `strtok_r` with the blank as only delimiter: the token, or a null pointer,
and the text at the saved pointer. -/
def strtokR (s : Text) : Option Text × Text :=
  let s := s.dropWhile (· = delimiter)
  if s = [] then (none,[])
  else (some (s.takeWhile (· ≠ delimiter)),(s.dropWhile (· ≠ delimiter)).drop 1)

/-- The text at a pointer which is handed to `strcmp` or `strlen`. -/
def pointed : Option Text → Checked Text
  | some s => .ok s
  | none => .error .nullPointer

/-- The length is tested before the characters, so that each of them is there. -/
def indexOk (s : Text) : Bool :=
  s.length = 4 && isdigit (s.getD 0 0) && s.getD 0 0 ≠ '0'.toUInt8 && s.getD 1 0 = ','.toUInt8 &&
    isdigit (s.getD 2 0) && s.getD 2 0 ≠ '0'.toUInt8 && s.getD 3 0 = newline

def processPut (self : Client) (strPtr : Text) : Checked (Client × List Text) := do
  let word ← pointed (strtokR strPtr).1
  let strPtr := (strtokR strPtr).2
  if word.length = 1 ∧ isdigit (word.getD 0 0) then do
    let self := { self with value := word.getD 0 0-48 }
    let word ← pointed (strtokR strPtr).1
    let strPtr := (strtokR strPtr).2
    if word = text "in" then do
      let word ← pointed (strtokR strPtr).1
      if indexOk word then
        .ok ({ self with row := word.getD 0 0-48, col := word.getD 2 0-48, status := .commandValid },
          [])
      else .ok (self,[errorIndex])
    else .ok ({ self with status := .commandInvalid },[errorInvalidPutCommand])
  else .ok ({ self with status := .commandInvalid },[errorInputVal])

def processWord (self : Client) (command : Text) : Client × List Text :=
  if command = text "verify\n" then
    ({ self with command := 'V'.toUInt8, status := .commandValid },[])
  else if command = text "get\n" then
    ({ self with command := 'G'.toUInt8, status := .commandValid },[])
  else if command = text "reset\n" then
    ({ self with command := 'R'.toUInt8, status := .commandValid },[])
  else if command = text "exit\n" then
    ({ self with command := 'E'.toUInt8, status := .commandValid },[])
  else if schar (command.headD 0) = -1 then
    ({ self with command := 'E'.toUInt8, status := .commandValid },[])
  else ({ self with status := .commandInvalid },[errorInvalidCommand])

def clientCommandProcess (self : Client) (command : Vector UInt8 maxCommandLength) :
    Checked (Client × List Text) :=
  if self.status = .eofReached then .ok (self,[])
  else do
    let line ← cString command
    let aux ← cString (snprintf (Vector.replicate maxInput 1) line)
    let word ← pointed (strtokR aux).1
    if word = text "put" then processPut { self with command := 'P'.toUInt8 } (strtokR aux).2
    else .ok (processWord self line)

def InputLine (s : Text) : Prop := ∃ body, newline ∉ body ∧ s = body++[newline]

def blanks (k : ℕ) : Text := List.replicate k delimiter

theorem strtok_blanks (k : ℕ) (s : Text) : strtokR (blanks k++s) = strtokR s := by
  have hdrop : (blanks k++s).dropWhile (· = delimiter) = s.dropWhile (· = delimiter) := by
    apply List.dropWhile_append_of_pos
    intro c hc
    simpa using List.eq_of_mem_replicate hc
  rw [strtokR, strtokR, hdrop]

theorem strtok_start {t : Text} (ht : t ≠ []) (hd : delimiter ∉ t) (rest : Text) :
    (t++rest).dropWhile (· = delimiter) = t++rest ∧
      (t++rest).takeWhile (· ≠ delimiter) = t++rest.takeWhile (· ≠ delimiter) ∧
      (t++rest).dropWhile (· ≠ delimiter) = rest.dropWhile (· ≠ delimiter) := by
  have hall : ∀ c ∈ t, decide (c ≠ delimiter) = true := by
    rintro c hc
    exact decide_eq_true fun he => hd (he ▸ hc)
  refine ⟨?_,List.takeWhile_append_of_pos hall,List.dropWhile_append_of_pos hall⟩
  cases t with
  | nil => exact absurd rfl ht
  | cons c cs =>
    have hc : c ≠ delimiter := fun he => hd (he ▸ List.mem_cons_self)
    rw [List.cons_append, List.dropWhile_cons_of_neg (by simpa using hc)]

theorem strtok_token {t : Text} (ht : t ≠ []) (hd : delimiter ∉ t) (rest : Text) :
    strtokR (t++delimiter::rest) = (some t,rest) := by
  obtain ⟨h1,h2,h3⟩ := strtok_start ht hd (delimiter::rest)
  rw [strtokR, h1, if_neg (by simp), h2, h3]
  simp

theorem strtok_last {t : Text} (ht : t ≠ []) (hd : delimiter ∉ t) :
    strtokR t = (some t,[]) := by
  obtain ⟨h1,h2,h3⟩ := strtok_start ht hd []
  rw [List.append_nil] at h1 h2 h3
  rw [strtokR, h1, if_neg ht, h2, h3]
  simp

theorem inputLine_suffix {pre rest : Text} (h : InputLine (pre++delimiter::rest)) :
    InputLine rest ∧ newline ∉ pre := by
  obtain ⟨body,hbody,he⟩ := h
  rcases List.eq_nil_or_concat rest with rfl | ⟨rest',z,rfl⟩
  · have hlast := (List.append_inj' he rfl).2
    exact absurd hlast (by decide)
  · have he' : (pre++delimiter::rest')++[z] = body++[newline] := by simpa using he
    obtain ⟨hb,hz⟩ := List.append_inj' he' rfl
    obtain rfl : z = newline := by simpa using hz
    subst hb
    simp only [List.mem_append, List.mem_cons, not_or] at hbody
    exact ⟨⟨rest',hbody.2.2,by simp⟩,hbody.1⟩

theorem strtok_line {s : Text} (h : InputLine s) :
    ∃ k t, (strtokR s).1 = some t ∧ (newline ∈ t → s = blanks k++t) ∧
      (newline ∉ t → InputLine (strtokR s).2 ∧ s = blanks k++(t++delimiter::(strtokR s).2)) := by
  have hmem : newline ∈ s := by
    obtain ⟨body,-,rfl⟩ := h
    simp
  obtain ⟨k,c,cs,hc,hs⟩ := skip_separators ⟨newline,hmem,(by decide : newline ≠ delimiter)⟩
  obtain rfl : s = blanks k++c::cs := hs
  rw [strtok_blanks]
  by_cases hd : delimiter ∈ cs
  · obtain ⟨t,rest,rfl,ht⟩ := List.eq_append_cons_of_mem hd
    have hct : delimiter ∉ c::t := by simp [Ne.symm hc, ht]
    have hline : InputLine ((blanks k++(c::t))++delimiter::rest) := by simpa using h
    obtain ⟨hrest,hpre⟩ := inputLine_suffix hline
    have hstr : strtokR (c::(t++delimiter::rest)) = (some (c::t),rest) :=
      strtok_token (by simp) hct rest
    rw [hstr]
    refine ⟨k,c::t,rfl,?_,fun _ => ⟨hrest,rfl⟩⟩
    intro hn
    exact absurd (List.mem_append_right _ hn) hpre
  · have hct : delimiter ∉ c::cs := by simp [Ne.symm hc, hd]
    have hn : newline ∈ c::cs := by
      refine (List.mem_append.mp hmem).resolve_left ?_
      intro hb
      exact absurd (List.eq_of_mem_replicate hb) (by decide)
    rw [strtok_last (by simp) hct]
    exact ⟨k,c::cs,rfl,fun _ => rfl,fun hnot => absurd hn hnot⟩

def putLine (a b e k : ℕ) (v : Fin 10) (r c : Fin 9) : Text :=
  blanks a++(text "put"++(blanks (b+1)++([digitChar v]++(blanks (e+1)++(text "in"++(blanks (k+1)++
    [ordinal r+48,','.toUInt8,ordinal c+48,newline]))))))

def Client.accept (self : Client) (command : UInt8) : Client :=
  { self with command, status := .commandValid }

inductive Accepted (self : Client) : Text → Client → Prop
  | put (a b e k : ℕ) (v : Fin 10) (r c : Fin 9) :
      Accepted self (putLine a b e k v r c)
        ⟨'P'.toUInt8,ordinal r,ordinal c,digitByte v,.commandValid⟩
  | verify : Accepted self (text "verify\n") (self.accept 'V'.toUInt8)
  | get : Accepted self (text "get\n") (self.accept 'G'.toUInt8)
  | reset : Accepted self (text "reset\n") (self.accept 'R'.toUInt8)
  | exit : Accepted self (text "exit\n") (self.accept 'E'.toUInt8)
  | eof (rest : Text) : Accepted self (255::rest) (self.accept 'E'.toUInt8)

theorem isdigit_digitChar {x : UInt8} (h : isdigit x = true) :
    ∃ v : Fin 10, x = digitChar v ∧ x-48 = digitByte v := by
  simp only [isdigit, Bool.and_eq_true, decide_eq_true_eq] at h
  have hsub : (x-48).toNat = x.toNat-48 := UInt8.toNat_sub_of_le _ _ (UInt8.le_iff_toNat_le.mpr h.1)
  refine ⟨⟨x.toNat-48,by omega⟩,?_,?_⟩
  · apply UInt8.toNat_inj.mp
    simp [digitChar, digitByte]
    omega
  · apply UInt8.toNat_inj.mp
    rw [hsub]
    simp [digitByte]
    omega

theorem isdigit_ordinal {x : UInt8} (h : isdigit x = true) (h0 : x ≠ '0'.toUInt8) :
    ∃ r : Fin 9, x = ordinal r+48 ∧ x-48 = ordinal r := by
  obtain ⟨v,hx,hv⟩ := isdigit_digitChar h
  have hv0 : v ≠ 0 := by
    rintro rfl
    exact h0 hx
  refine ⟨⟨v.val-1,by have := v.isLt; omega⟩,?_,?_⟩
  · rw [hx]
    revert hv0
    clear hx hv
    revert v
    decide
  · rw [hv]
    revert hv0
    clear hx hv
    revert v
    decide

theorem indexOk_iff (s : Text) :
    indexOk s = true ↔ ∃ r c : Fin 9, s = [ordinal r+48,','.toUInt8,ordinal c+48,newline] := by
  constructor
  · intro h
    simp only [indexOk, Bool.and_eq_true, decide_eq_true_eq] at h
    obtain ⟨⟨⟨⟨⟨⟨hlen,h0⟩,h0'⟩,h1⟩,h2⟩,h2'⟩,h3⟩ := h
    obtain ⟨x,y,z,w,rfl⟩ := List.length_eq_four.mp hlen
    obtain ⟨r,hr,-⟩ := isdigit_ordinal h0 h0'
    obtain ⟨c,hc,-⟩ := isdigit_ordinal h2 h2'
    refine ⟨r,c,?_⟩
    simp only [List.getD_cons_zero, List.getD_cons_succ] at hr hc h1 h3
    rw [hr, hc, h1, h3]
  · rintro ⟨r,c,rfl⟩
    revert r c
    decide

def putTail (b e k : ℕ) (v : Fin 10) (r c : Fin 9) : Text :=
  blanks b++([digitChar v]++delimiter::(blanks e++(text "in"++delimiter::(blanks k++
    [ordinal r+48,','.toUInt8,ordinal c+48,newline]))))

theorem putLine_eq (a b e k : ℕ) (v : Fin 10) (r c : Fin 9) :
    putLine a b e k v r c = blanks a++(text "put"++delimiter::putTail b e k v r c) := rfl

theorem digitChar_digit (v : Fin 10) :
    isdigit (digitChar v) = true ∧ digitChar v ≠ delimiter ∧ digitChar v ≠ newline ∧
      digitChar v-48 = digitByte v := by
  revert v
  decide

theorem index_token (r c : Fin 9) :
    delimiter ∉ [ordinal r+48,','.toUInt8,ordinal c+48,newline] := by
  revert r c
  decide

theorem processPut_tail (self : Client) (b e k : ℕ) (v : Fin 10) (r c : Fin 9) :
    processPut self (putTail b e k v r c) =
      .ok (⟨self.command,ordinal r,ordinal c,digitByte v,.commandValid⟩,[]) := by
  have hv := digitChar_digit v
  have h1 : strtokR (putTail b e k v r c) = (some [digitChar v],blanks e++(text "in"++
      delimiter::(blanks k++[ordinal r+48,','.toUInt8,ordinal c+48,newline]))) := by
    rw [putTail, strtok_blanks]
    exact strtok_token (by simp) (by simpa using Ne.symm hv.2.1) _
  have h2 : strtokR (blanks e++(text "in"++
      delimiter::(blanks k++[ordinal r+48,','.toUInt8,ordinal c+48,newline]))) =
      (some (text "in"),blanks k++[ordinal r+48,','.toUInt8,ordinal c+48,newline]) := by
    rw [strtok_blanks]
    exact strtok_token (by decide) (by decide) _
  have h3 : strtokR (blanks k++[ordinal r+48,','.toUInt8,ordinal c+48,newline]) =
      (some [ordinal r+48,','.toUInt8,ordinal c+48,newline],[]) := by
    rw [strtok_blanks]
    exact strtok_last (by simp) (index_token r c)
  have hindex := (indexOk_iff [ordinal r+48,','.toUInt8,ordinal c+48,newline]).mpr ⟨r,c,rfl⟩
  rw [processPut, h1, pointed, ok_bind, if_pos ⟨rfl,hv.1⟩, h2, pointed, ok_bind, if_pos rfl, h3,
    pointed, ok_bind, if_pos hindex]
  simp [hv.2.2.2]

/-- The tail of a line has a token wherever one is used, and passes every test
only where it is the tail of a put. -/
theorem processPut_line (self : Client) {s : Text} (h : InputLine s) :
    ∃ self' errors, processPut self s = .ok (self',errors) ∧
      ((∃ b e k v r c, s = putTail b e k v r c) ∨ self'.status = .commandInvalid ∨
        self'.status = self.status) := by
  obtain ⟨b,t,ht,-,hrest⟩ := strtok_line h
  rw [processPut, ht, pointed, ok_bind]
  by_cases hdigit : t.length = 1 ∧ isdigit (t.getD 0 0) = true
  · obtain ⟨x,rfl⟩ := List.length_eq_one_iff.mp hdigit.1
    obtain ⟨v,hx,-⟩ := isdigit_digitChar hdigit.2
    obtain rfl : x = digitChar v := hx
    obtain ⟨hs1,he1⟩ := hrest (by simpa using Ne.symm (digitChar_digit v).2.2.1)
    obtain ⟨e,u,hu,-,hrest'⟩ := strtok_line hs1
    rw [if_pos hdigit, hu, pointed, ok_bind]
    by_cases hin : u = text "in"
    · subst hin
      obtain ⟨hs2,he2⟩ := hrest' (by decide)
      obtain ⟨k,w,hw,hend,-⟩ := strtok_line hs2
      rw [if_pos rfl, hw, pointed, ok_bind]
      by_cases hindex : indexOk w = true
      · obtain ⟨r,c,rfl⟩ := (indexOk_iff w).mp hindex
        have he3 := hend (by simp)
        refine ⟨_,_,if_pos hindex,.inl ⟨b,e,k,v,r,c,?_⟩⟩
        rw [he1, he2, he3, putTail]
      · exact ⟨_,_,if_neg hindex,.inr (.inr rfl)⟩
    · exact ⟨_,_,if_neg hin,.inr (.inl rfl)⟩
  · exact ⟨_,_,if_neg hdigit,.inr (.inl rfl)⟩

theorem schar_eof {c : UInt8} : schar c = -1 ↔ c = 255 := by
  constructor
  · intro h
    have hc : c.toInt8 = (255:UInt8).toInt8 := Int8.toInt.inj h
    exact congrArg Int8.toUInt8 hc
  · rintro rfl
    rfl

theorem processWord_cases (self : Client) {s : Text} (h : s ≠ []) :
    ∃ self' errors, processWord self s = (self',errors) ∧
      ((Accepted self s self' ∧ errors = []) ∨ self'.status = .commandInvalid) := by
  rw [processWord]
  split
  · rename_i he
    exact ⟨_,_,rfl,.inl ⟨he ▸ .verify,rfl⟩⟩
  split
  · rename_i he
    exact ⟨_,_,rfl,.inl ⟨he ▸ .get,rfl⟩⟩
  split
  · rename_i he
    exact ⟨_,_,rfl,.inl ⟨he ▸ .reset,rfl⟩⟩
  split
  · rename_i he
    exact ⟨_,_,rfl,.inl ⟨he ▸ .exit,rfl⟩⟩
  split
  · rename_i he
    obtain ⟨c,rest,rfl⟩ := List.exists_cons_of_ne_nil h
    obtain rfl : c = 255 := schar_eof.mp he
    exact ⟨_,_,rfl,.inl ⟨.eof rest,rfl⟩⟩
  · exact ⟨_,_,rfl,.inr rfl⟩

def readInto (command : Vector UInt8 maxCommandLength) (line : Text) :
    Vector UInt8 maxCommandLength := overwrite command 0 (line++[0])

theorem readInto_string (command : Vector UInt8 maxCommandLength) {line : Text}
    (hlen : line.length < maxCommandLength) :
    cString (readInto command line) = .ok (line.takeWhile (· ≠ 0)) := by
  have hlist := overwrite_toList command (line++[0]) (by simpa using hlen)
  rw [List.append_assoc] at hlist
  exact cString_terminated hlist

theorem readInto_cString (command : Vector UInt8 maxCommandLength) {line : Text}
    (hlen : line.length ≤ 19) (h0 : (0:UInt8) ∉ line) :
    cString (readInto command line) = .ok line := by
  rw [readInto_string command (Nat.lt_succ_of_le hlen), takeWhile_string h0]

theorem process_eq (self : Client) (hself : self.status = .ok)
    (command : Vector UInt8 maxCommandLength) {line : Text} (hlen : line.length ≤ 19)
    (h0 : (0:UInt8) ∉ line) :
    clientCommandProcess self (readInto command line) =
      pointed (strtokR line).1 >>= fun word =>
        if word = text "put" then processPut { self with command := 'P'.toUInt8 } (strtokR line).2
        else .ok (processWord self line) := by
  have hcopy : cString (snprintf (Vector.replicate maxInput 1) line) = .ok line :=
    cString_eq (snprintf_toList _ _ (by simp only [maxInput]; omega)) h0
  rw [clientCommandProcess, hself, if_neg (by decide), readInto_cString command hlen h0, ok_bind,
    hcopy, ok_bind]

section Lines
variable (self : Client) (hself : self.status = .ok) (command : Vector UInt8 maxCommandLength)
  {line : Text}
include hself

theorem accepted_processed (hlen : line.length ≤ 19) (h0 : (0:UInt8) ∉ line) {self' : Client}
    (h : Accepted self line self') :
    clientCommandProcess self (readInto command line) = .ok (self',[]) := by
  rw [process_eq self hself command hlen h0]
  cases h with
  | put a b e k v r c =>
    have hput : strtokR (putLine a b e k v r c) = (some (text "put"),putTail b e k v r c) := by
      rw [putLine_eq, strtok_blanks]
      exact strtok_token (by decide) (by decide) _
    rw [hput, pointed, ok_bind, if_pos rfl, processPut_tail]
  | verify => rfl
  | get => rfl
  | reset => rfl
  | exit => rfl
  | eof rest =>
    have hstart : (255::rest).dropWhile (· = delimiter) = 255::rest :=
      List.dropWhile_cons_of_neg (by decide)
    have hword : (strtokR (255::rest)).1 = some (255::rest.takeWhile (· ≠ delimiter)) := by
      rw [strtokR, hstart, if_neg (by simp), List.takeWhile_cons_of_pos (by decide)]
    have hne : ∀ t : Text, t.head? ≠ some 255 → ∀ l, ¬ 255::l = t := by
      rintro t ht l rfl
      exact ht rfl
    rw [hword, pointed, ok_bind, if_neg (hne _ (by decide) _), processWord,
      if_neg (hne _ (by decide) _), if_neg (hne _ (by decide) _), if_neg (hne _ (by decide) _),
      if_neg (hne _ (by decide) _), List.headD_cons, if_pos (schar_eof.mpr rfl)]
    rfl

theorem process_cases (hline : InputLine line) (hlen : line.length ≤ 19)
    (h0 : (0:UInt8) ∉ line) :
    ∃ self' errors, clientCommandProcess self (readInto command line) = .ok (self',errors) ∧
      (Accepted self line self' ∨ self'.status = .commandInvalid ∨ self'.status = .ok) := by
  obtain ⟨a,t,ht,-,hrest⟩ := strtok_line hline
  rw [process_eq self hself command hlen h0, ht, pointed, ok_bind]
  by_cases hput : t = text "put"
  · subst hput
    obtain ⟨hs,he⟩ := hrest (by decide)
    rw [if_pos rfl]
    obtain ⟨self',errors,hp,hcases⟩ := processPut_line { self with command := 'P'.toUInt8 } hs
    rcases hcases with ⟨b,e,k,v,r,c,htail⟩ | hinvalid | hkept
    · rw [htail, processPut_tail]
      refine ⟨_,_,rfl,.inl ?_⟩
      rw [he, htail]
      exact .put a b e k v r c
    · exact ⟨self',errors,hp,.inr (.inl hinvalid)⟩
    · exact ⟨self',errors,hp,.inr (.inr (hkept.trans hself))⟩
  · have hne : line ≠ [] := by
      obtain ⟨body,-,rfl⟩ := hline
      simp
    obtain ⟨self',errors,hp,hcases⟩ := processWord_cases self hne
    rw [if_neg hput, hp]
    refine ⟨self',errors,rfl,?_⟩
    rcases hcases with ⟨hacc,-⟩ | hinvalid
    · exact .inl hacc
    · exact .inr (.inl hinvalid)

/-- The parser marks a line valid exactly when it has an accepted form, and
then takes from it what that form stands for. -/
theorem process_valid_iff (hline : InputLine line) (hlen : line.length ≤ 19)
    (h0 : (0:UInt8) ∉ line) :
    ∃ self' errors, clientCommandProcess self (readInto command line) = .ok (self',errors) ∧
      (self'.status = .commandValid ↔ ∃ s, Accepted self line s) ∧
      ∀ s, Accepted self line s → self' = s ∧ errors = [] := by
  obtain ⟨self',errors,hp,hcases⟩ := process_cases self hself command hline hlen h0
  have htaken : ∀ s, Accepted self line s → self' = s ∧ errors = [] := by
    intro s hs
    have hacc := accepted_processed self hself command hlen h0 hs
    rw [hp] at hacc
    exact Prod.mk.inj (Except.ok.inj hacc)
  refine ⟨self',errors,hp,⟨?_,?_⟩,htaken⟩
  · intro hvalid
    rcases hcases with hacc | hinvalid | hkept
    · exact ⟨self',hacc⟩
    · rw [hinvalid] at hvalid
      cases hvalid
    · rw [hkept] at hvalid
      cases hvalid
  · rintro ⟨s,hs⟩
    rw [(htaken s hs).1]
    cases hs <;> rfl

end Lines

theorem process_valid_iff_put :
    ∃ self' errors, clientCommandProcess ⟨0,0,0,0,.ok⟩
        (readInto (Vector.replicate maxCommandLength 1) (text " put 7  in 5,8\n")) =
      .ok (self',errors) ∧ self' = ⟨'P'.toUInt8,5,8,7,.commandValid⟩ := by
  have hline : InputLine (text " put 7  in 5,8\n") := ⟨text " put 7  in 5,8",by decide,by decide⟩
  obtain ⟨self',errors,hp,-,htaken⟩ := process_valid_iff ⟨0,0,0,0,.ok⟩ rfl
    (Vector.replicate maxCommandLength 1) hline (by decide) (by decide)
  have hput : text " put 7  in 5,8\n" = putLine 1 0 1 0 7 4 7 := by decide
  exact ⟨self',errors,hp,(htaken _ (hput ▸ .put 1 0 1 0 7 4 7)).1⟩

end Workshop.SudokuClient
