import Workshop.SudokuProtocol

/-!
# Strings from the server to the client

The length in the header is read back with `atoi`. The body lands in a buffer
which still holds the strings before it, and its last byte is replaced by the
terminator. The standard streams of the client are an interface of their own.
-/

set_option autoImplicit false

namespace Workshop.SudokuStrings
open Workshop.CMemory Workshop.InteractiveProgram Workshop.ByteChannel
open Workshop.SudokuBoard Workshop.SudokuProtocol

def newline : UInt8 := 10

inductive StdioOp where
  | fgetc
  | ungetc (c : UInt8)
  | fgets (size : ℕ)
  | printf (s : Text)
  | fprintf (s : Text)
  deriving DecidableEq, Repr

/-- `none` is `EOF` for `fgetc` and a null pointer for `fgets`. -/
abbrev StdioRes : StdioOp → Type
  | .fgetc => Option UInt8
  | .ungetc _ => Unit
  | .fgets size => Option {s : Text // s.length < size}
  | .printf _ => Unit
  | .fprintf _ => Unit

abbrev stdio : Interface := ⟨StdioOp,StdioRes⟩

abbrev ClientProgram (α : Type) := Program (net stdio) Halt α

def checked {I : Interface} {α : Type} : Checked α → Program I Halt α
  | .ok a => .ret a
  | .error f => .fail (.fault f)

@[simp] theorem checked_ok {I : Interface} {α : Type} (a : α) :
    (checked (.ok a) : Program I Halt α) = .ret a := rfl

@[simp] theorem checked_error {I : Interface} {α : Type} (f : Fault) :
    (checked (.error f) : Program I Halt α) = .fail (.fault f) := rfl

def isdigit (c : UInt8) : Bool := 48 ≤ c.toNat && c.toNat ≤ 57

def isspace (c : UInt8) : Bool := c = 32 || (9 ≤ c.toNat && c.toNat ≤ 13)

def atoiDigits : ℕ → Text → ℕ
  | acc, [] => acc
  | acc, c::cs => if isdigit c then atoiDigits (acc*10+(c.toNat-48)) cs else acc

def atoi (s : Text) : ℤ :=
  match s.dropWhile isspace with
  | [] => 0
  | c::cs =>
    if c = '-'.toUInt8 then -(atoiDigits 0 cs:ℤ)
    else if c = '+'.toUInt8 then (atoiDigits 0 cs:ℤ)
    else (atoiDigits 0 (c::cs):ℤ)

abbrev receivedBoard : ℕ := 800

/-- The end of `protocol_receive_string`, where the string is terminated and printed. -/
def printReceived (len : ℤ) (received : Vector UInt8 receivedBoard) :
    Checked (Vector UInt8 receivedBoard × Text) := do
  let received ← store received (len-1) 0
  let shown ← cString received
  .ok (received,shown++[newline])

def protocolReceiveString (received : Vector UInt8 receivedBoard) :
    ClientProgram (SocketStatus × Vector UInt8 receivedBoard) :=
  sktReceive (headerLen-1) (Vector.replicate headerLen 0) >>= fun r =>
    checked (cString r.2) >>= fun header =>
      if atoi header = 0 then .ret (.receptionFailure,received)
      else sktReceive (atoi header) received >>= fun r =>
        checked (printReceived (atoi header) r.2) >>= fun p =>
          .call (.other (.printf p.2)) fun _ => .ret (r.1,p.1)

theorem digit_isdigit {k : ℕ} (h : k < 10) : isdigit (UInt8.ofNat (48+k)) = true := by
  interval_cases k <;> rfl

theorem digit_value {k : ℕ} (h : k < 10) : (UInt8.ofNat (48+k)).toNat-48 = k := by
  interval_cases k <;> rfl

theorem decimal_digits (k : ℕ) : ∀ c ∈ decimal k, isdigit c = true := by
  induction k using Nat.strong_induction_on with
  | _ k ih =>
    rw [decimal]
    split
    · rename_i h
      simpa using digit_isdigit h
    · rw [List.forall_mem_append]
      exact ⟨ih (k/10) (by omega),by simpa using digit_isdigit (Nat.mod_lt k (by decide))⟩

theorem atoiDigits_append {ds : Text} (h : ∀ c ∈ ds, isdigit c = true) (acc : ℕ) (es : Text) :
    atoiDigits acc (ds++es) = atoiDigits (atoiDigits acc ds) es := by
  induction ds generalizing acc with
  | nil => rfl
  | cons c cs ih =>
    rw [List.forall_mem_cons] at h
    rw [List.cons_append, atoiDigits, if_pos h.1, ih h.2, atoiDigits, if_pos h.1]

theorem atoiDigits_decimal (k : ℕ) : atoiDigits 0 (decimal k) = k := by
  induction k using Nat.strong_induction_on with
  | _ k ih =>
    rw [decimal]
    split
    · rename_i h
      rw [atoiDigits, if_pos (digit_isdigit h), atoiDigits, digit_value h]
      omega
    · have hmod : k%10 < 10 := Nat.mod_lt k (by decide)
      rw [atoiDigits_append (decimal_digits _), ih (k/10) (by omega), atoiDigits,
        if_pos (digit_isdigit hmod), atoiDigits, digit_value hmod]
      omega

theorem atoi_digits {s : Text} (h : ∀ c ∈ s, isdigit c = true) : atoi s = atoiDigits 0 s := by
  cases s with
  | nil => rfl
  | cons c cs =>
    have hc := (List.forall_mem_cons.mp h).1
    simp only [isdigit, Bool.and_eq_true, decide_eq_true_eq] at hc
    have hspace : isspace c = false := by
      have h32 : c ≠ 32 := by
        rintro rfl
        exact absurd hc.1 (by decide)
      simp only [isspace, h32, decide_false, Bool.false_or, Bool.and_eq_false_iff,
        decide_eq_false_iff_not]
      omega
    have hminus : c ≠ '-'.toUInt8 := by
      rintro rfl
      exact absurd hc.1 (by decide)
    have hplus : c ≠ '+'.toUInt8 := by
      rintro rfl
      exact absurd hc.1 (by decide)
    rw [atoi, List.dropWhile_cons, hspace]
    simp [hminus, hplus]

def headerText (k : ℕ) : Text := if k < 10 then 48::48::decimal k else decimal k

def headerBytes (k : ℕ) : Text := (headerText k++[0]).take 3

theorem headerText_digits (k : ℕ) : ∀ c ∈ headerText k, isdigit c = true := by
  rw [headerText]
  split
  · simp only [List.forall_mem_cons]
    exact ⟨by decide,by decide,decimal_digits k⟩
  · exact decimal_digits k

theorem atoi_headerText (k : ℕ) : atoi (headerText k) = k := by
  rw [atoi_digits (headerText_digits k), headerText]
  split
  · exact congrArg _ (atoiDigits_decimal k)
  · rw [atoiDigits_decimal]

theorem decimal_length {k : ℕ} (h : k < 1000) :
    (decimal k).length = if k < 10 then 1 else if k < 100 then 2 else 3 := by
  by_cases h1 : k < 10
  · rw [decimal, if_pos h1, if_pos h1]
    rfl
  by_cases h2 : k < 100
  · rw [decimal, if_neg h1, if_neg h1, if_pos h2, decimal, if_pos (by omega)]
    rfl
  · rw [decimal, if_neg h1, if_neg h1, if_neg h2, decimal, if_neg (by omega), decimal,
      if_pos (by omega)]
    rfl

theorem headerText_length {k : ℕ} (h : k < 1000) :
    2 ≤ (headerText k).length ∧ (headerText k).length ≤ 3 := by
  have hlen := decimal_length h
  rw [headerText]
  split
  · rename_i h1
    rw [if_pos h1] at hlen
    simp [hlen]
  · rename_i h1
    rw [if_neg h1] at hlen
    split at hlen <;> omega

theorem headerBytes_length {k : ℕ} (h : k < 1000) : (headerBytes k).length = 3 := by
  have hlen := headerText_length h
  rw [headerBytes, List.length_take, List.length_append, List.length_singleton]
  omega

theorem messageHeader_take (messageLen : Vector UInt8 headerLen) {k : ℕ} (h : k < 1000) :
    (messageHeader messageLen k).toList.take 3 = headerBytes k := by
  have hform : messageHeader messageLen k = snprintf messageLen (headerText k) := by
    have hpos : ¬ (k:ℤ) < 0 := by omega
    have htext : text "00" = [48,48] := by decide
    rw [messageHeader, headerText, formatInt, if_neg hpos, Int.natAbs_natCast]
    by_cases h1 : k < 10
    · rw [if_pos (by omega), if_pos h1, htext]
      rfl
    · rw [if_neg (by omega), if_neg h1]
      split <;> rfl
  have hlen := headerText_length h
  have h3 : 3-((headerText k).length+1) = 0 := by omega
  rw [hform, snprintf_toList _ _ (by simp only [headerLen]; omega), headerBytes]
  have hcons : headerText k++0::messageLen.toList.drop ((headerText k).length+1) =
      (headerText k++[0])++messageLen.toList.drop ((headerText k).length+1) := by simp
  rw [hcons, List.take_append_of_le_length (by simp; omega)]

theorem headerBytes_string {k : ℕ} (h : k < 1000) :
    (headerBytes k).takeWhile (· ≠ 0) = headerText k := by
  have hlen := headerText_length h
  have h0 : (0:UInt8) ∉ headerText k := by
    intro h0
    exact absurd (headerText_digits k 0 h0) (by decide)
  rw [headerBytes]
  rcases Nat.lt_or_ge (headerText k).length 3 with hlt | hge
  · rw [List.take_of_length_le (by simp; omega), takeWhile_nul, takeWhile_string h0]
  · rw [List.take_append_of_le_length hge, List.take_of_length_le hlen.2, takeWhile_string h0]

theorem header_string {bytes : Text} (h : bytes.length ≤ 3) :
    cString (overwrite (Vector.replicate headerLen 0) 0 bytes) =
      .ok (bytes.takeWhile (· ≠ 0)) := by
  have hlist : (overwrite (Vector.replicate headerLen 0) 0 bytes).toList =
      bytes++0::List.replicate (3-bytes.length) 0 := by
    rw [overwrite_toList _ _ (by simp only [headerLen]; omega), Vector.toList_replicate,
      List.drop_replicate, ← List.replicate_succ]
    congr 2
    simp only [headerLen]
    omega
  exact cString_terminated hlist

theorem header_cString {k : ℕ} (h : k < 1000) :
    cString (overwrite (Vector.replicate headerLen 0) 0 (headerBytes k)) = .ok (headerText k) := by
  rw [header_string (headerBytes_length h).le, headerBytes_string h]

theorem printReceived_body (received : Vector UInt8 receivedBoard) {t : Text} (h : t ≠ [])
    (hlen : t.length ≤ receivedBoard) (h0 : (0:UInt8) ∉ t) :
    ∃ received', printReceived t.length (overwrite received 0 t) =
      .ok (received',t.dropLast++[newline]) := by
  obtain ⟨body,last,rfl⟩ : ∃ body last, t = body++[last] :=
    ⟨t.dropLast,t.getLast h,(List.dropLast_append_getLast h).symm⟩
  rw [List.length_append, List.length_singleton] at hlen
  have hk : ((body++[last]).length:ℤ)-1 = (body.length:ℕ) := by simp
  have hlist : ((overwrite received 0 (body++[last])).set body.length 0 (by omega)).toList =
      body++0::received.toList.drop (body.length+1) := by
    rw [Vector.toList_set, overwrite_toList _ _ (by simpa using hlen), List.append_assoc,
      List.set_append_right _ _ le_rfl]
    simp
  have hbody : (0:UInt8) ∉ body := fun hc => h0 (List.mem_append_left _ hc)
  refine ⟨(overwrite received 0 (body++[last])).set body.length 0 (by omega),?_⟩
  rw [printReceived, hk, store_nat _ _ (by omega), ok_bind, cString_eq hlist hbody,
    List.dropLast_concat]
  rfl

structure Stdio where
  input : Text
  printed : List Text
  errors : List Text

def inputLine : ℕ → Text → Text
  | 0, _ => []
  | _, [] => []
  | k+1, c::cs => if c = newline then [c] else c::inputLine k cs

theorem inputLine_le (k : ℕ) (s : Text) : (inputLine k s).length ≤ k := by
  induction k generalizing s with
  | zero => simp [inputLine]
  | succ k ih =>
    cases s with
    | nil => simp [inputLine]
    | cons c cs =>
      rw [inputLine]
      split
      · simp
      · simpa using ih cs

def fgetsAnswer (size : ℕ) (input : Text) : Option {s : Text // s.length < size} :=
  if h : input = [] ∨ size = 0 then none
  else some ⟨inputLine (size-1) input,by have := inputLine_le (size-1) input; omega⟩

def terminal : Handler stdio Halt Stdio
  | .fgetc, s => (.ok s.input.head?,{ s with input := s.input.tail })
  | .ungetc c, s => (.ok (),{ s with input := c::s.input })
  | .fgets size, s => (.ok (fgetsAnswer size s.input),
      { s with input := s.input.drop (inputLine (size-1) s.input).length })
  | .printf t, s => (.ok (),{ s with printed := s.printed++[t] })
  | .fprintf t, s => (.ok (),{ s with errors := s.errors++[t] })

section Strings
variable {I : Interface} {σ : Type} (d : Delivery)

def frame (t : Text) : Text := headerBytes t.length++t

theorem run_sendString (H : Handler I Halt σ) (hd : d.Reliable)
    (messageLen : Vector UInt8 headerLen) {t : Text} (ht : t.length < 1000) (w : Wire) (s : σ) :
    ∃ status k, run (wired d H) (protocolSendString messageLen t) (w,s) =
      (.ok status,⟨w.incoming,w.outgoing++frame t,k⟩,s) := by
  obtain ⟨k1,h1⟩ := run_sktSend d H hd (headerLen-1) (messageHeader messageLen t.length).toList w s
  have h3 : (((headerLen:ℕ):ℤ)-1).toNat = 3 := by decide
  rw [h3, messageHeader_take messageLen ht] at h1
  obtain ⟨k2,h2⟩ := run_sktSend d H hd t.length t ⟨w.incoming,w.outgoing++headerBytes t.length,k1⟩ s
  refine ⟨.sendSuccess,k2,?_⟩
  rw [protocolSendString, narrow_small (by omega), run_bind, h1, andThen_ok, h2, frame]
  simp

theorem run_sktReceive {n : ℕ} (H : Handler I Halt σ) (buf : Vector UInt8 n) {body : Text}
    (h : body ≠ []) (hn : body.length ≤ n) (rest out : Text) (k : ℕ) (s : σ) :
    ∃ k', run (wired d H) (sktReceive body.length buf) (⟨body++rest,out,k⟩,s) =
      (.ok (.receptionSuccess,overwrite buf 0 body),⟨rest,out,k'⟩,s) := by
  have hpart := run_sktReceive_part d H body.length buf ⟨body++rest,out,k⟩ s (by simp; omega)
  rw [Int.toNat_natCast, List.take_left, List.drop_left, receptionStatus, if_neg h] at hpart
  exact hpart

/-- A sent string is received exactly, and shown without its last byte. -/
theorem run_receiveString {t : Text} (h : t ≠ []) (hlen : t.length < receivedBoard)
    (h0 : (0:UInt8) ∉ t) (received : Vector UInt8 receivedBoard) (rest out : Text) (k : ℕ)
    (s : Stdio) :
    ∃ received' k', run (wired d terminal) (protocolReceiveString received)
        (⟨frame t++rest,out,k⟩,s) =
      (.ok (.receptionSuccess,received'),⟨rest,out,k'⟩,
        { s with printed := s.printed++[t.dropLast++[newline]] }) := by
  have hsmall : t.length < 1000 := by rw [receivedBoard] at hlen; omega
  have hbytes := headerBytes_length hsmall
  have hne : headerBytes t.length ≠ [] := List.ne_nil_of_length_eq_add_one hbytes
  obtain ⟨k1,h1⟩ := run_sktReceive d terminal (Vector.replicate headerLen 0) hne
    (by rw [hbytes]; decide) (t++rest) out k s
  obtain ⟨k2,h2⟩ := run_sktReceive d terminal received h hlen.le rest out k1 s
  obtain ⟨received',hp⟩ := printReceived_body received h hlen.le h0
  have hpos := List.length_pos_iff.mpr h
  have hz : ¬ ((t.length:ℕ):ℤ) = 0 := by omega
  refine ⟨received',k2,?_⟩
  have h3 : ((headerBytes t.length).length:ℤ) = ((headerLen:ℕ):ℤ)-1 := by rw [hbytes]; rfl
  rw [h3] at h1
  rw [protocolReceiveString, frame, List.append_assoc, run_bind, h1, andThen_ok,
    header_cString hsmall, checked_ok, Program.ret_bind, atoi_headerText, if_neg hz, run_bind, h2,
    andThen_ok, hp]
  rfl

def sendMessages {I : Interface} : List (Vector UInt8 headerLen × Text) → Program (net I) Halt Unit
  | [] => .ret ()
  | m::ms => protocolSendString m.1 m.2 >>= fun _ => sendMessages ms

def receiveStrings : ℕ → Vector UInt8 receivedBoard → ClientProgram (Vector UInt8 receivedBoard)
  | 0, received => .ret received
  | n+1, received => protocolReceiveString received >>= fun r => receiveStrings n r.2

def Sendable (t : Text) : Prop := 1 ≤ t.length ∧ t.length ≤ 799 ∧ (0:UInt8) ∉ t

theorem run_sendMessages (H : Handler I Halt σ) (hd : d.Reliable)
    (ms : List (Vector UInt8 headerLen × Text)) (hms : ∀ m ∈ ms, Sendable m.2) (w : Wire) (s : σ) :
    ∃ k, run (wired d H) (sendMessages ms) (w,s) =
      (.ok (),⟨w.incoming,w.outgoing++ms.flatMap fun m => frame m.2,k⟩,s) := by
  induction ms generalizing w with
  | nil => exact ⟨w.calls,by simp [sendMessages]⟩
  | cons m ms ih =>
    obtain ⟨hm,hms⟩ := List.forall_mem_cons.mp hms
    have hlt : m.2.length < 1000 := by
      have := hm.2.1
      omega
    obtain ⟨status,k1,h1⟩ := run_sendString d H hd m.1 hlt w s
    obtain ⟨k,hk⟩ := ih hms ⟨w.incoming,w.outgoing++frame m.2,k1⟩
    refine ⟨k,?_⟩
    rw [sendMessages, run_bind, h1, andThen_ok, hk, List.flatMap_cons, List.append_assoc]

theorem run_receiveStrings (ts : List Text) (hts : ∀ t ∈ ts, Sendable t)
    (received : Vector UInt8 receivedBoard) (rest out : Text) (k : ℕ) (s : Stdio) :
    ∃ received' k', run (wired d terminal) (receiveStrings ts.length received)
        (⟨ts.flatMap frame++rest,out,k⟩,s) =
      (.ok received',⟨rest,out,k'⟩,
        { s with printed := s.printed++ts.map fun t => t.dropLast++[newline] }) := by
  induction ts generalizing received k s with
  | nil => exact ⟨received,k,by simp [receiveStrings]⟩
  | cons t ts ih =>
    obtain ⟨⟨hpos,hle,h0⟩,hts⟩ := List.forall_mem_cons.mp hts
    have hne : t ≠ [] := List.length_pos_iff.mp hpos
    obtain ⟨received1,k1,h1⟩ := run_receiveString d hne (by simp only [receivedBoard]; omega) h0
      received (ts.flatMap frame++rest) out k s
    obtain ⟨received2,k2,h2⟩ := ih hts received1 k1
      { s with printed := s.printed++[t.dropLast++[newline]] }
    refine ⟨received2,k2,?_⟩
    rw [List.length_cons, receiveStrings, List.flatMap_cons, List.append_assoc, run_bind, h1,
      andThen_ok, h2]
    simp

end Strings

def sentFrames (d : Delivery) (ms : List (Vector UInt8 headerLen × Text)) : Text :=
  (run (wired d terminal) (sendMessages ms) (⟨[],[],0⟩,⟨[],[],[]⟩)).2.1.outgoing

/-- The first `n` receptions consume the bytes of the first `n` strings and
show these strings without their last bytes. No access leaves the buffer. -/
theorem strings_received (d d' : Delivery) (hd : d.Reliable)
    (ms : List (Vector UInt8 headerLen × Text)) (hms : ∀ m ∈ ms, Sendable m.2) (n : ℕ)
    (hn : n ≤ ms.length) (received : Vector UInt8 receivedBoard) (rest out : Text) (k : ℕ)
    (s : Stdio) :
    ∃ received' k', run (wired d' terminal) (receiveStrings n received)
        (⟨sentFrames d ms++rest,out,k⟩,s) =
      (.ok received',⟨sentFrames d (ms.drop n)++rest,out,k'⟩,
        { s with printed :=
          s.printed++(ms.take n).map fun m => m.2.dropLast++[newline] }) := by
  have hsent : ∀ l, (∀ m ∈ l, Sendable m.2) → sentFrames d l = (l.map Prod.snd).flatMap frame := by
    intro l hl
    obtain ⟨k',hk⟩ := run_sendMessages d terminal hd l hl ⟨[],[],0⟩ ⟨[],[],[]⟩
    rw [sentFrames, hk]
    simp [List.flatMap_map]
  have htake : ∀ t ∈ (ms.take n).map Prod.snd, Sendable t := by
    simp only [List.forall_mem_map]
    exact fun m hm => hms m (List.mem_of_mem_take hm)
  obtain ⟨received',k',hk⟩ := run_receiveStrings d' ((ms.take n).map Prod.snd) htake received
    (sentFrames d (ms.drop n)++rest) out k s
  refine ⟨received',k',?_⟩
  have hsplit : sentFrames d ms =
      ((ms.take n).map Prod.snd).flatMap frame++sentFrames d (ms.drop n) := by
    rw [hsent ms hms, hsent _ (fun m hm => hms m (List.mem_of_mem_drop hm)),
      ← List.flatMap_append, ← List.map_append, List.take_append_drop]
  rw [List.length_map, List.length_take, Nat.min_eq_left hn] at hk
  rw [hsplit, List.append_assoc, hk, List.map_map]
  rfl

def fallingMessages : List (Vector UInt8 headerLen × Text) :=
  [List.replicate 120 120++[newline],text "La celda no es modificable\n",text "OK\n"].map
    fun t => (Vector.replicate _ 0,t)

theorem strings_received_falling :
    ∃ received' k', run (wired byteByByte terminal) (receiveStrings 3 (Vector.replicate _ 7))
        (⟨sentFrames byteByByte fallingMessages++text "999",[],0⟩,⟨[],[],[]⟩) =
      (.ok received',⟨text "999",[],k'⟩,⟨[],fallingMessages.map Prod.snd,[]⟩) := by
  have hsend : ∀ m ∈ fallingMessages, Sendable m.2 := by
    simp only [fallingMessages, List.map_cons, List.map_nil, List.forall_mem_cons]
    exact ⟨⟨by simp,by simp,by simp [newline]⟩,⟨by decide,by decide,by decide⟩,
      ⟨by decide,by decide,by decide⟩,fun _ h => by cases h⟩
  have hshown : ((fallingMessages.take 3).map fun m => m.2.dropLast++[newline]) =
      fallingMessages.map Prod.snd := by decide
  obtain ⟨received',k',hk⟩ := strings_received byteByByte byteByByte byteByByte_reliable
    fallingMessages hsend 3 le_rfl (Vector.replicate _ 7) (text "999") [] 0 ⟨[],[],[]⟩
  rw [hshown] at hk
  exact ⟨received',k',hk⟩

end Workshop.SudokuStrings
