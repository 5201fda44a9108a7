import Workshop.Words
import Workshop.SudokuPlay

/-!
# Tokens the parser of the client takes for granted

`strtok_r` hands out the words of a line one by one, and a null pointer when
none is left. The parser looks at no more than the first nineteen bytes of the
line. It uses up to four words there without a test.
-/

set_option autoImplicit false

namespace Workshop.SudokuTokens
open Workshop.CMemory Workshop.InteractiveProgram Workshop.ByteChannel Workshop.Words
open Workshop.SudokuProtocol Workshop.SudokuStrings Workshop.SudokuClient Workshop.SudokuPlay

/-- `client_command_process` on the C string at its pointer. -/
def processString (self : Client) (command : Text) : Checked (Client × List Text) :=
  if self.status = .eofReached then .ok (self,[])
  else do
    let aux ← cString (snprintf (Vector.replicate maxInput 1) command)
    let word ← pointed (strtokR aux).1
    if word = text "put" then processPut { self with command := 'P'.toUInt8 } (strtokR aux).2
    else .ok (processWord self command)

theorem process_string (self : Client) {command : Vector UInt8 maxCommandLength} {line : Text}
    (h : cString command = .ok line) :
    clientCommandProcess self command = processString self line := by
  rw [clientCommandProcess, h, ok_bind]
  rfl

theorem snprintf_cut {n : ℕ} (a : Vector UInt8 (n+1)) {s : Text} (h0 : (0:UInt8) ∉ s) :
    cString (snprintf a s) = .ok (s.take n) := by
  have hcut : snprintf a s = snprintf a (s.take n) := by
    apply Vector.ext
    intro i hi
    rw [snprintf_get, snprintf_get, List.length_take, Nat.add_sub_cancel, min_comm n,
      Nat.min_assoc, Nat.min_self]
    split
    · rename_i hlt
      rw [List.getD_eq_getElem?_getD, List.getD_eq_getElem?_getD, List.getElem?_take_of_lt (by omega)]
    · rfl
  rw [hcut]
  apply cString_eq (snprintf_toList a (s.take n) (by rw [List.length_take]; omega))
  exact fun hmem => h0 (List.mem_of_mem_take hmem)

theorem strtok_words (s : Text) :
    (strtokR s).1 = (words delimiter s).head? ∧
      words delimiter (strtokR s).2 = (words delimiter s).tail := by
  rcases words_cases delimiter s with ⟨k,rfl⟩ | ⟨k,w,hw,hd,rfl | ⟨rest,rfl⟩⟩
  · have hnone : strtokR (List.replicate k delimiter) = (none,[]) := by
      have hb := strtok_blanks k []
      rw [List.append_nil] at hb
      exact hb
    have hwords := words_separators delimiter k []
    rw [List.append_nil, words_nil] at hwords
    rw [hnone, hwords]
    exact ⟨rfl,words_nil delimiter⟩
  · rw [words_separators, words_last hw hd]
    have hb := strtok_blanks k w
    rw [blanks, strtok_last hw hd] at hb
    rw [hb]
    exact ⟨rfl,words_nil delimiter⟩
  · rw [words_separators, words_cons hw hd]
    have hb := strtok_blanks k (w++delimiter::rest)
    rw [blanks, strtok_token hw hd] at hb
    rw [hb]
    exact ⟨rfl,rfl⟩

def IsValue (word : Text) : Prop := word.length = 1 ∧ isdigit (word.getD 0 0) = true

instance (word : Text) : Decidable (IsValue word) := inferInstanceAs (Decidable (_ ∧ _))

def Next (asked : Text → Prop) (others : List Text → Prop) : List Text → Prop
  | [] => False
  | word::words => asked word → others words

instance (asked : Text → Prop) (others : List Text → Prop) [∀ word, Decidable (asked word)]
    [∀ words, Decidable (others words)] (words : List Text) : Decidable (Next asked others words) :=
  match words with
  | [] => inferInstanceAs (Decidable False)
  | _::_ => inferInstanceAs (Decidable (_ → _))

/-- Behind every word of a put that is right there is another one. -/
def Supplied : List Text → Prop :=
  Next (· = text "put") (Next IsValue (Next (· = text "in") (· ≠ [])))

instance (words : List Text) : Decidable (Supplied words) :=
  inferInstanceAs (Decidable (Next _ _ words))

section Tokens
variable {β : Type}

theorem next_token {asked : Text → Prop} {others : List Text → Prop} (s : Text)
    {f : Text → Checked β}
    (hasked : ∀ word, asked word →
      (f word ≠ .error .nullPointer ↔ others (words delimiter (strtokR s).2)))
    (hother : ∀ word, ¬ asked word → f word ≠ .error .nullPointer) :
    (pointed (strtokR s).1 >>= f) ≠ .error .nullPointer ↔
      Next asked others (words delimiter s) := by
  obtain ⟨hword,hrest⟩ := strtok_words s
  cases hs : words delimiter s with
  | nil =>
    rw [hs] at hword
    rw [hword]
    simp [pointed, Next]
  | cons word others =>
    rw [hs] at hword hrest
    rw [hword]
    by_cases h : asked word
    · have hstep := hasked word h
      rw [hrest] at hstep
      simpa [pointed, Next, h] using hstep
    · have hstep := hother word h
      simpa [pointed, Next, h] using hstep

theorem last_token (s : Text) {f : Text → Checked β} (h : ∀ word, f word ≠ .error .nullPointer) :
    (pointed (strtokR s).1 >>= f) ≠ .error .nullPointer ↔ words delimiter s ≠ [] := by
  obtain ⟨hword,-⟩ := strtok_words s
  cases hs : words delimiter s with
  | nil =>
    rw [hs] at hword
    rw [hword]
    simp [pointed]
  | cons word others =>
    rw [hs] at hword
    rw [hword]
    simpa [pointed] using h word

end Tokens

theorem processPut_tokens (self : Client) (s : Text) :
    processPut self s ≠ .error .nullPointer ↔
      Next IsValue (Next (· = text "in") (· ≠ [])) (words delimiter s) := by
  apply next_token
  · intro value hvalue
    rw [IsValue] at hvalue
    dsimp only
    rw [if_pos hvalue]
    apply next_token
    · intro prep hprep
      rw [if_pos hprep]
      apply last_token
      intro index
      split
      · exact nofun
      · exact nofun
    · intro prep hprep
      rw [if_neg hprep]
      exact nofun
  · intro value hvalue
    rw [IsValue] at hvalue
    dsimp only
    rw [if_neg hvalue]
    exact nofun

/-- The parser uses no missing token exactly when the words of the copied part
of the line are supplied. -/
theorem process_tokens_iff (self : Client) {line : Text} (h0 : (0:UInt8) ∉ line) :
    processString self line ≠ .error .nullPointer ↔
      self.status = .eofReached ∨ Supplied (words delimiter (line.take (maxInput-1))) := by
  rw [processString]
  by_cases heof : self.status = .eofReached
  · rw [if_pos heof]
    simp [heof]
  · rw [if_neg heof, or_iff_right heof, snprintf_cut _ h0, ok_bind]
    apply next_token
    · intro put hput
      rw [if_pos hput]
      exact processPut_tokens _ _
    · intro put hput
      rw [if_neg hput]
      exact nofun

theorem process_tokens_iff_put :
    processString ⟨0,0,0,0,.ok⟩ (text "put 1 in 2,3\n") ≠ .error .nullPointer :=
  (process_tokens_iff ⟨0,0,0,0,.ok⟩ (by decide)).mpr (.inr (by decide))

/-- The client at the first line of its input. -/
def firstRead : Playing :=
  ⟨⟨'X'.toUInt8,0,0,0,.commandInvalid⟩,.argsOk,Vector.replicate maxCommandLength 1,
    Vector.replicate receivedBoard 0⟩

/-- An input that ends behind the word `put` leads to a null pointer. -/
theorem put_without_value :
    (run (wired byteByByte terminal) (playRead firstRead) (⟨[],[],0⟩,⟨text "put",[],[]⟩)).1 =
      .error (.fault .nullPointer) ∧
    ¬ ∀ (self : Client) (line : Text), line.length ≤ 49 → (0:UInt8) ∉ line →
      processString self line ≠ .error .nullPointer := by
  refine ⟨rfl,fun h => ?_⟩
  have hput := h ⟨0,0,0,0,.ok⟩ (text "put") (by decide) (by decide)
  rw [process_tokens_iff _ (by decide)] at hput
  exact absurd hput (by decide)

end Workshop.SudokuTokens
