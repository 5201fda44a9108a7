import Workshop.FtpNetwork

/-!
# The client of the file server

One turn of the client's loop reads a line from the user, sends it and reads
the response. The response is recognised by its first three characters. The
characters past the end of a text are a parameter.
-/

set_option autoImplicit false

namespace Workshop.FtpClient
open Workshop.CMemory Workshop.InteractiveProgram Workshop.ByteChannel
open Workshop.FtpConfig Workshop.FtpCommand Workshop.FtpNetwork

/-- `getline` answers with the empty text at the end of the input. -/
inductive ClientOp where
  | getline
  | print (s : Text)
  deriving DecidableEq, Repr

abbrev ClientRes : ClientOp → Type
  | .getline => Text
  | .print _ => Unit

abbrev terminal : Interface := ⟨ClientOp,ClientRes⟩

abbrev ClientProgram (α : Type) := Program (net terminal) Halt α

def codeLength : ℕ := 3

/-- What a client finds that reads NULs past the end of a text. -/
def noStray : Text → ℕ → UInt8 := fun _ _ => 0

section Source
variable (stray : Text → ℕ → UInt8) (n : ℕ)

/-- `s[i]` of a `std::string`, which is NUL for `i = s.size()`. An index past that is
undefined in the source and finds any byte here, as in the empty string that
`receive_list` starts with. -/
def charAt (s : Text) (i : ℕ) : UInt8 :=
  if i < s.length then s.getD i 0 else if i = s.length then 0 else stray s i

def getCode (receivedString : Text) : Text :=
  (List.range codeLength).map (charAt stray receivedString)

def isListStart (str : Text) : Bool := getCode stray str = idListBegin

def quitReceived (response : Text) : Bool := getCode stray response = idQuit

def printResponse (receivedString : Text) : ClientProgram Unit :=
  .call (.other (.print receivedString)) .ret

/-- One turn of `while (get_code(list_item) != ID_LIST_END)`. -/
def receiveItem (listItem : Text) : ClientProgram (Text ⊕ Unit) :=
  if getCode stray listItem = idListEnd then .ret (.inr ())
  else protocolReceiveString n >>= fun item =>
    printResponse item >>= fun _ => .ret (.inl item)

def receiveList : ClientProgram Unit := Program.iterate .running (receiveItem stray n) n []

def exchange (userInput : Text) : ClientProgram Text :=
  protocolSendString userInput >>= fun _ =>
    protocolReceiveString n >>= fun response =>
      printResponse response >>= fun _ =>
        (if isListStart stray response then receiveList stray n else .ret ()) >>= fun _ =>
          .ret response

/-- One turn of `while (running)`, which goes on with the last response. -/
def clientTurn (response : Text) : ClientProgram (Text ⊕ Unit) :=
  .call (.other .getline) fun line =>
    if line++[newline] ≠ [newline] then
      exchange stray n (line++[newline]) >>= fun response => .ret (.inl response)
    else if line++[newline] = [newline] ∨ quitReceived stray response then
      protocolSendString (line++[newline]) >>= fun _ => .ret (.inr ())
    else .ret (.inl response)

def receiveHello : ClientProgram Unit := protocolReceiveString n >>= printResponse

def clientLoop (m : ℕ) (response : Text) : ClientProgram Unit :=
  Program.iterate .running (clientTurn stray n) m response >>= fun _ => .call .shutdown .ret

def runClient : ClientProgram Unit :=
  Program.attempt (fun e => if e = .thrown then .ret () else .fail e)
    (receiveHello n >>= fun _ => clientLoop stray n n [])

theorem getCode_long {s : Text} (h : codeLength ≤ s.length) : getCode stray s = s.take 3 := by
  obtain ⟨a,b,c,rest,rfl⟩ : ∃ a b c rest, s = a::b::c::rest := by
    rw [codeLength] at h
    match s with
    | a::b::c::rest => exact ⟨a,b,c,rest,rfl⟩
  simp [getCode, charAt, codeLength, List.range_succ]

theorem getCode_append {id rest : Text} (h : id.length = 3) : getCode stray (id++rest) = id := by
  rw [getCode_long stray (by rw [codeLength, List.length_append]; omega), ← h, List.take_left]

/-- No character of the code is past the NUL behind the text. -/
def Coded (s : Text) : Prop := codeLength ≤ s.length+1

instance codedDecidable (s : Text) : Decidable (Coded s) := inferInstanceAs (Decidable (_ ≤ _))

theorem getCode_coded {s : Text} (h : Coded s) (stray' : Text → ℕ → UInt8) :
    getCode stray s = getCode stray' s := by
  apply List.map_congr_left
  intro i hi
  have hle : i ≤ s.length := Nat.lt_succ_iff.mp ((List.mem_range.mp hi).trans_le h)
  rcases hle.lt_or_eq with hlt | heq
  · rw [charAt, charAt, if_pos hlt, if_pos hlt]
  · rw [charAt, charAt, if_neg heq.not_lt, if_neg heq.not_lt, if_pos heq, if_pos heq]

theorem getCode_nil : getCode stray [] ≠ idListEnd := by
  intro h
  have hcode : getCode stray [] = [0,stray [] 1,stray [] 2] := rfl
  have hend : idListEnd = [50,50,54] := by decide
  rw [hcode, hend, List.cons.injEq] at h
  exact absurd h.1 (by decide)

end Source

structure Console where
  input : List Text
  printed : List Text

def console : Handler terminal Halt Console
  | .getline, c => (.ok (c.input.headD []),{ c with input := c.input.tail })
  | .print s, c => (.ok (),{ c with printed := c.printed++[s] })

section Turns
variable (stray : Text → ℕ → UInt8) (d : Delivery)

theorem run_print (s : Text) (w : Wire) (c : Console) :
    run (wired d console) (printResponse s) (w,c) =
      (.ok (),w,{ c with printed := c.printed++[s] }) := rfl

theorem run_receive_isLine {line : Text} (hline : IsLine line) {n : ℕ} (hn : line.length < n)
    (rest out : Text) (k : ℕ) (c : Console) :
    ∃ k', run (wired d console) (protocolReceiveString n) (⟨line++rest,out,k⟩,c) =
      (.ok line,⟨rest,out,k'⟩,c) := by
  obtain ⟨body,hbody,rfl⟩ := hline
  rw [List.length_append, List.length_singleton] at hn
  exact ⟨_,by simpa using run_receive_line d console body rest out hbody n hn k c⟩

theorem run_receiveList {lines : List Text} {last : Text} (hlast : IsLine last)
    (hcode : getCode stray last = idListEnd) (n : ℕ) (hn : last.length < n)
    (hlines : ∀ l ∈ lines, IsLine l ∧ getCode stray l ≠ idListEnd ∧ l.length < n) (m : ℕ)
    (hm : lines.length+1 < m) (item : Text) (hitem : getCode stray item ≠ idListEnd)
    (rest out : Text) (k : ℕ) (c : Console) :
    ∃ k', run (wired d console) (Program.iterate .running (receiveItem stray n) m item)
        (⟨lines.flatten++last++rest,out,k⟩,c) =
      (.ok (),⟨rest,out,k'⟩,{ c with printed := c.printed++(lines++[last]) }) := by
  induction lines generalizing m item k c with
  | nil =>
    obtain ⟨m,rfl⟩ : ∃ i, m = i+2 := ⟨m-2,by simp at hm; omega⟩
    obtain ⟨k',hk'⟩ := run_receive_isLine d hlast hn rest out k c
    refine ⟨k',?_⟩
    rw [Program.iterate, run_bind, receiveItem, if_neg hitem, run_bind, List.flatten_nil,
      List.nil_append, hk', andThen_ok, run_bind, run_print, andThen_ok, run_ret, andThen_ok]
    dsimp only
    rw [Program.iterate, run_bind, receiveItem, if_pos hcode]
    rfl
  | cons l lines ih =>
    obtain ⟨m,rfl⟩ : ∃ i, m = i+1 := ⟨m-1,by simp at hm; omega⟩
    obtain ⟨hl,hlcode,hlen⟩ := hlines l List.mem_cons_self
    obtain ⟨k1,hk1⟩ := run_receive_isLine d hl hlen (lines.flatten++last++rest) out k c
    obtain ⟨k',hk'⟩ := ih (fun x hx => hlines x (List.mem_cons_of_mem _ hx)) m
      (by simp at hm; omega) l hlcode k1 { c with printed := c.printed++[l] }
    refine ⟨k',?_⟩
    have hsplit : (l::lines).flatten++last++rest = l++(lines.flatten++last++rest) := by simp
    rw [Program.iterate, run_bind, receiveItem, if_neg hitem, run_bind, hsplit, hk1, andThen_ok,
      run_bind, run_print, andThen_ok, run_ret, andThen_ok]
    dsimp only
    rw [hk']
    simp

theorem run_send (hd : d.Reliable) (cmd : Text) (w : Wire) (c : Console) :
    ∃ out k, run (wired d console) (protocolSendString cmd) (w,c) =
      (.ok (),⟨w.incoming,out,k⟩,c) := by
  obtain ⟨k,hk⟩ := run_socketSend d console hd cmd w c
  exact ⟨_,k,hk⟩

theorem run_clientTurn (hd : d.Reliable) {line answer : Text} (hquery : line ≠ [])
    (hanswer : IsLine answer) {n : ℕ} (hn : answer.length < n) (response rest : Text)
    (input printed : List Text) (sent : Text) (k : ℕ) :
    ∃ out k', run (wired d console) (clientTurn stray n response)
        (⟨answer++rest,sent,k⟩,⟨line::input,printed⟩) =
      andThen (run (wired d console)
        (if isListStart stray answer then receiveList stray n else .ret ())
        (⟨rest,out,k'⟩,⟨input,printed++[answer]⟩)) fun _ s => (.ok (.inl answer),s) := by
  obtain ⟨out,k1,hk1⟩ := run_send d hd (line++[newline]) ⟨answer++rest,sent,k⟩ ⟨input,printed⟩
  obtain ⟨k2,hk2⟩ := run_receive_isLine d hanswer hn rest out k1 ⟨input,printed⟩
  refine ⟨out,k2,?_⟩
  have hne : line++[newline] ≠ [newline] := by simpa using hquery
  rw [clientTurn, run_call]
  have hline : wired d console (.other .getline) (⟨answer++rest,sent,k⟩,⟨line::input,printed⟩) =
      (.ok line,⟨answer++rest,sent,k⟩,⟨input,printed⟩) := rfl
  rw [hline, andThen_ok, if_pos hne, run_bind, exchange, run_bind, hk1, andThen_ok, run_bind, hk2,
    andThen_ok, run_bind, run_print, andThen_ok, run_bind]
  rcases run (wired d console)
    (if isListStart stray answer then receiveList stray n else .ret ())
    (⟨rest,out,k2⟩,⟨input,printed++[answer]⟩) with ⟨e | a,s⟩
  · rfl
  · rfl

theorem run_clientTurn_line (hd : d.Reliable) {line answer : Text} (hquery : line ≠ [])
    (hanswer : IsLine answer) (hcode : getCode stray answer ≠ idListBegin) {n : ℕ}
    (hn : answer.length < n) (response rest : Text) (input printed : List Text) (sent : Text)
    (k : ℕ) :
    ∃ out k', run (wired d console) (clientTurn stray n response)
        (⟨answer++rest,sent,k⟩,⟨line::input,printed⟩) =
      (.ok (.inl answer),⟨rest,out,k'⟩,⟨input,printed++[answer]⟩) := by
  obtain ⟨out,k',hk'⟩ := run_clientTurn stray d hd hquery hanswer hn response rest input printed
    sent k
  refine ⟨out,k',?_⟩
  rw [hk', if_neg (by simpa [isListStart] using hcode)]
  rfl

theorem run_clientTurn_list (hd : d.Reliable) {line first last : Text} {lines : List Text}
    (hquery : line ≠ []) (hfirst : IsLine first) (hbegin : getCode stray first = idListBegin)
    (hlast : IsLine last) (hend : getCode stray last = idListEnd) {n : ℕ}
    (hn : first.length < n) (hn' : last.length < n) (hm : lines.length+1 < n)
    (hlines : ∀ l ∈ lines, IsLine l ∧ getCode stray l ≠ idListEnd ∧ l.length < n)
    (response rest : Text) (input printed : List Text) (sent : Text) (k : ℕ) :
    ∃ out k', run (wired d console) (clientTurn stray n response)
        (⟨first++(lines.flatten++last++rest),sent,k⟩,⟨line::input,printed⟩) =
      (.ok (.inl first),⟨rest,out,k'⟩,⟨input,printed++(first::lines++[last])⟩) := by
  obtain ⟨out,k1,hk1⟩ := run_clientTurn stray d hd hquery hfirst hn response
    (lines.flatten++last++rest) input printed sent k
  obtain ⟨k2,hk2⟩ := run_receiveList stray d hlast hend n hn' hlines n hm [] (getCode_nil stray)
    rest out k1 ⟨input,printed++[first]⟩
  refine ⟨out,k2,?_⟩
  rw [hk1, if_pos (by simpa [isListStart] using hbegin), receiveList, hk2]
  simp

/-- The bytes printed are the bytes taken from the connection. -/
def Accounted (w : Wire) (c : Console) (w' : Wire) (c' : Console) : Prop :=
  c'.printed.flatten++w'.incoming = c.printed.flatten++w.incoming

theorem receive_accounted {n : ℕ} {line : Text} {w w' : Wire} {c c' : Console}
    (h : run (wired d console) (protocolReceiveString n) (w,c) = (.ok line,w',c')) :
    IsLine line ∧ line++w'.incoming = w.incoming ∧ c' = c := by
  obtain ⟨incoming,out,k⟩ := w
  have hok : (run (wired d console) (protocolReceiveString n) (⟨incoming,out,k⟩,c)).1 = .ok line := by
    rw [h]
  by_cases hnl : newline ∈ incoming
  · obtain ⟨body,rest,hbody,rfl⟩ := first_newline hnl
    rw [run_receive_first d console body rest out hbody n k c] at hok
    split at hok
    · rename_i hn
      rw [run_receive_line d console body rest out hbody n hn k c] at h
      cases h
      exact ⟨⟨body,hbody,rfl⟩,by simp,rfl⟩
    · cases hok
  · rw [run_receive_unended d console incoming out hnl n k c] at hok
    cases hok

theorem item_accounted {n : ℕ} {item : Text} {x : Text ⊕ Unit} {w w' : Wire} {c c' : Console}
    (h : run (wired d console) (receiveItem stray n item) (w,c) = (.ok x,w',c')) :
    Accounted w c w' c' := by
  rw [receiveItem] at h
  split at h
  · cases h
    rfl
  · rw [run_bind] at h
    rcases hr : run (wired d console) (protocolReceiveString n) (w,c) with ⟨e | line,w1,c1⟩
    · rw [hr] at h
      cases h
    · obtain ⟨-,hline,rfl⟩ := receive_accounted d hr
      rw [hr, andThen_ok, run_bind, run_print] at h
      cases h
      simp [Accounted, ← hline]

theorem list_accounted {n m : ℕ} {item : Text} {w w' : Wire} {c c' : Console}
    (h : run (wired d console) (Program.iterate .running (receiveItem stray n) m item) (w,c) =
      (.ok (),w',c')) : Accounted w c w' c' := by
  induction m generalizing item w c with
  | zero => cases h
  | succ m ih =>
    rw [Program.iterate, run_bind] at h
    rcases hr : run (wired d console) (receiveItem stray n item) (w,c) with ⟨e | x,w1,c1⟩
    · rw [hr] at h
      cases h
    · have hfirst := item_accounted stray d hr
      rw [hr, andThen_ok] at h
      cases x with
      | inl item' => exact (ih h).trans hfirst
      | inr u =>
        cases h
        exact hfirst

theorem turn_cases {n : ℕ} {response answer : Text} {w w' : Wire} {c c' : Console}
    (h : run (wired d console) (clientTurn stray n response) (w,c) = (.ok (.inl answer),w',c')) :
    ∃ line input w1, c.input = line::input ∧ line ≠ [] ∧ IsLine answer ∧
      answer++w1.incoming = w.incoming ∧
      run (wired d console) (if isListStart stray answer then receiveList stray n else .ret ())
        (w1,⟨input,c.printed++[answer]⟩) = (.ok (),w',c') := by
  obtain ⟨input,printed⟩ := c
  rw [clientTurn, run_call] at h
  by_cases hquery : input.headD []++[newline] = [newline]
  · have hline : wired d console (.other .getline) (w,⟨input,printed⟩) =
        (.ok (input.headD []),w,⟨input.tail,printed⟩) := rfl
    obtain ⟨r,out,k,hs,-⟩ := run_socketSend_ends d console (input.headD []++[newline]) w
      ⟨input.tail,printed⟩
    rw [hline, andThen_ok, if_neg (not_not.mpr hquery), if_pos (.inl hquery), run_bind, hs] at h
    cases r with
    | error e => cases h
    | ok u => cases h
  · obtain ⟨line,input,rfl⟩ : ∃ line rest, input = line::rest := by
      cases input with
      | nil => exact absurd rfl hquery
      | cons line rest => exact ⟨line,rest,rfl⟩
    have hne : line++[newline] ≠ [newline] := hquery
    have hline : wired d console (.other .getline) (w,⟨line::input,printed⟩) =
        (.ok line,w,⟨input,printed⟩) := rfl
    rw [hline, andThen_ok, if_pos hne, run_bind, exchange, run_bind] at h
    obtain ⟨r,out,k,hs,-⟩ := run_socketSend_ends d console (line++[newline]) w ⟨input,printed⟩
    rw [hs] at h
    cases r with
    | error e => cases h
    | ok u =>
      rw [andThen_ok, run_bind] at h
      rcases hr : run (wired d console) (protocolReceiveString n)
        (⟨w.incoming,out,k⟩,⟨input,printed⟩) with ⟨e | received,w1,c1⟩
      · rw [hr] at h
        cases h
      · obtain ⟨hreceived,hbytes,rfl⟩ := receive_accounted d hr
        rw [hr, andThen_ok, run_bind, run_print, andThen_ok, run_bind] at h
        rcases hl : run (wired d console)
          (if isListStart stray received then receiveList stray n else .ret ())
          (w1,⟨input,printed++[received]⟩) with ⟨e | u',w2,c2⟩
        · rw [hl] at h
          cases h
        · rw [hl] at h
          cases h
          exact ⟨line,input,w1,rfl,by simpa using hne,hreceived,hbytes,hl⟩

theorem turn_accounted {n : ℕ} {line response last : Text} {input : List Text} {w w' : Wire}
    {printed : List Text} {c' : Console}
    (h : run (wired d console) (clientTurn stray n response) (w,⟨line::input,printed⟩) =
      (.ok (.inl last),w',c')) : Accounted w ⟨input,printed⟩ w' c' := by
  obtain ⟨line',input',w1,-,-,-,hbytes,hlist⟩ := turn_cases stray d h
  have hfirst : Accounted w ⟨input,printed⟩ w1 ⟨input',printed++[last]⟩ := by
    simp [Accounted, ← hbytes]
  split at hlist
  · exact (list_accounted stray d hlist).trans hfirst
  · cases hlist
    exact hfirst

end Turns

end Workshop.FtpClient
