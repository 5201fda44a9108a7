import Workshop.FtpClient

/-!
# The client after the server's goodbye

The test for a goodbye stands in a branch that only an empty line reaches, and
that branch is taken without it. A client that has received a goodbye asks its
user for another line, as it does after every other message.
-/

set_option autoImplicit false

namespace Workshop.FtpGoodbye
open Workshop.CMemory Workshop.InteractiveProgram Workshop.ByteChannel
open Workshop.FtpConfig Workshop.FtpCommand Workshop.FtpNetwork Workshop.FtpClient

section Client
variable (stray : Text → ℕ → UInt8) (d : Delivery) (n : ℕ) (typed : List Text) (stream : Text)

/-- The client is at the head of its loop after a number of turns, with its
variable `response`, the last message of the server, the connection and the
terminal. -/
inductive AtLoop : ℕ → Text → Text → Wire → Console → Prop where
  | hello {message : Text} {w : Wire}
      (h : run (wired d console) (receiveHello n) (⟨stream,[],0⟩,⟨typed,[]⟩) =
        (.ok (),w,⟨typed,[message]⟩)) :
      AtLoop 0 [] message w ⟨typed,[message]⟩
  | turn {j : ℕ} {response message answer : Text} {w w' : Wire} {c c' : Console}
      (h : AtLoop j response message w c)
      (hturn : run (wired d console) (clientTurn stray n response) (w,c) =
        (.ok (.inl answer),w',c')) :
      AtLoop (j+1) answer answer w' c'

structure Leaves (response : Text) (w : Wire) (c : Console) (m : ℕ) : Prop where
  returned : (run (wired d console) (clientLoop stray n m response) (w,c)).1 = .ok ()
  unread : .other .getline ∉ calls (wired d console) (clientLoop stray n m response) (w,c)
  unsent : ∀ buf, .send buf ∉ calls (wired d console) (clientLoop stray n m response) (w,c)
  shutdown : .shutdown ∈ calls (wired d console) (clientLoop stray n m response) (w,c)

/-- Whenever the last message is a goodbye, the client leaves. -/
def ObeysGoodbye : Prop :=
  ∀ n j response message w c, AtLoop stray d n typed stream j response message w c →
    getCode stray message = idQuit → ∃ m, Leaves stray d n response w c m

variable {stray d n typed stream}

theorem turn_reads (response : Text) (w : Wire) (c : Console) (m : ℕ) :
    ¬ Leaves stray d n response w c m := by
  intro h
  cases m with
  | zero => cases h.returned
  | succ m => exact h.unread List.mem_cons_self

variable (stray) in
def afterList : List Text → Option (List Text)
  | [] => none
  | line::lines => if getCode stray line = idListEnd then some lines else afterList lines

variable (stray) in
def afterResponse (answer : Text) (lines : List Text) : Option (List Text) :=
  if isListStart stray answer then afterList stray lines else some lines

variable (stray) in
/-- The responses to the lines typed before the first empty one, when the
server sends these lines. -/
def responses : List Text → List Text → List Text
  | [], _ => []
  | _, [] => []
  | line::typed, answer::lines =>
    if line = [] then []
    else answer::match afterResponse stray answer lines with
      | some lines => responses typed lines
      | none => []

variable (stray typed stream) in
def messages : List Text :=
  match (splitLines stream).1 with
  | [] => []
  | greeting::lines => greeting::responses stray typed lines

theorem splitLines_first {line t : Text} (h : IsLine line) :
    (splitLines (line++t)).1 = line::(splitLines t).1 := by
  obtain ⟨body,hbody,rfl⟩ := h
  rw [List.append_assoc, List.singleton_append, splitLines_line hbody]

theorem list_behind {m : ℕ} {item : Text} {w w' : Wire} {c c' : Console}
    (h : run (wired d console) (Program.iterate .running (receiveItem stray n) m item) (w,c) =
      (.ok (),w',c')) :
    c'.input = c.input ∧
      if getCode stray item = idListEnd then w'.incoming = w.incoming
      else afterList stray (splitLines w.incoming).1 = some (splitLines w'.incoming).1 := by
  induction m generalizing item w c with
  | zero => cases h
  | succ m ih =>
    rw [Program.iterate, run_bind, receiveItem] at h
    by_cases hcode : getCode stray item = idListEnd
    · rw [if_pos hcode] at h
      cases h
      exact ⟨rfl,by rw [if_pos hcode]⟩
    · rw [if_neg hcode, run_bind] at h
      rcases hr : run (wired d console) (protocolReceiveString n) (w,c) with ⟨e | line,w1,c1⟩
      · rw [hr] at h
        cases h
      · obtain ⟨hline,hbytes,rfl⟩ := receive_accounted d hr
        rw [hr, andThen_ok, run_bind, run_print, andThen_ok, run_ret, andThen_ok] at h
        obtain ⟨hinput,hrest⟩ := ih h
        refine ⟨hinput,?_⟩
        rw [if_neg hcode, ← hbytes, splitLines_first hline, afterList]
        split at hrest
        · rename_i hend
          rw [if_pos hend, hrest]
        · rename_i hend
          rw [if_neg hend, hrest]

theorem turn_behind {response answer : Text} {w w' : Wire} {c c' : Console}
    (h : run (wired d console) (clientTurn stray n response) (w,c) = (.ok (.inl answer),w',c')) :
    ∃ line lines, c.input = line::c'.input ∧ line ≠ [] ∧
      (splitLines w.incoming).1 = answer::lines ∧
      afterResponse stray answer lines = some (splitLines w'.incoming).1 := by
  obtain ⟨line,input,w1,hinput,hne,hanswer,hbytes,hlist⟩ := turn_cases stray d h
  have hlines : (splitLines w.incoming).1 = answer::(splitLines w1.incoming).1 := by
    rw [← hbytes, splitLines_first hanswer]
  split at hlist
  · rename_i hstart
    obtain ⟨hrest,hafter⟩ := list_behind hlist
    rw [if_neg (getCode_nil stray)] at hafter
    exact ⟨line,_,by rw [hinput, hrest],hne,hlines,by rw [afterResponse, if_pos hstart, hafter]⟩
  · rename_i hstart
    cases hlist
    exact ⟨line,_,hinput,hne,hlines,by rw [afterResponse, if_neg hstart]⟩

theorem responses_turn {line answer : Text} {typed lines rest : List Text} (hne : line ≠ [])
    (h : afterResponse stray answer lines = some rest) :
    responses stray (line::typed) (answer::lines) = answer::responses stray typed rest := by
  rw [responses, if_neg hne, h]

theorem atLoop_message {j : ℕ} {response message : Text} {w : Wire} {c : Console}
    (h : AtLoop stray d n typed stream j response message w c) :
    message ∈ messages stray typed stream ∧
      ∀ x ∈ responses stray c.input (splitLines w.incoming).1, x ∈ messages stray typed stream := by
  induction h with
  | @hello message w h =>
    rw [receiveHello, run_bind] at h
    rcases hr : run (wired d console) (protocolReceiveString n) (⟨stream,[],0⟩,⟨typed,[]⟩)
      with ⟨e | line,w1,c1⟩
    · rw [hr] at h
      cases h
    · obtain ⟨hline,hbytes,rfl⟩ := receive_accounted d hr
      have hbytes : line++w1.incoming = stream := hbytes
      rw [hr, andThen_ok, run_print] at h
      cases h
      rw [messages, ← hbytes, splitLines_first hline]
      exact ⟨List.mem_cons_self,fun x hx => List.mem_cons_of_mem _ hx⟩
  | @turn j response message answer w w' c c' h hturn ih =>
    obtain ⟨line,lines,hinput,hne,hlines,hafter⟩ := turn_behind hturn
    have hall := ih.2
    rw [hinput, hlines, responses_turn hne hafter] at hall
    exact ⟨hall answer List.mem_cons_self,fun x hx => hall x (List.mem_cons_of_mem _ hx)⟩

theorem afterList_some {lines rest : List Text} (h : afterList stray lines = some rest) :
    ∃ items last, lines = items++last::rest ∧ getCode stray last = idListEnd ∧
      ∀ l ∈ items, getCode stray l ≠ idListEnd := by
  induction lines with
  | nil => cases h
  | cons line lines ih =>
    rw [afterList] at h
    by_cases hcode : getCode stray line = idListEnd
    · rw [if_pos hcode] at h
      cases h
      exact ⟨[],line,rfl,hcode,by simp⟩
    · rw [if_neg hcode] at h
      obtain ⟨items,last,rfl,hlast,hitems⟩ := ih h
      refine ⟨line::items,last,rfl,hlast,?_⟩
      intro l hl
      rcases List.mem_cons.mp hl with rfl | hl
      · exact hcode
      · exact hitems l hl

theorem goodbye_no_list {answer : Text} (h : getCode stray answer = idQuit) :
    isListStart stray answer = false := by
  rw [isListStart, h]
  decide

theorem turn_goes_on (hd : d.Reliable) {line answer : Text} {lines rest : List Text}
    (hne : line ≠ []) (hlines : ∀ l ∈ answer::lines, IsLine l)
    (hn : (answer::lines).flatten.length < n) (hafter : afterResponse stray answer lines = some rest)
    (tail out response : Text) (input printed : List Text) (k : ℕ) :
    ∃ out' k' printed', run (wired d console) (clientTurn stray n response)
        (⟨(answer::lines).flatten++tail,out,k⟩,⟨line::input,printed⟩) =
      (.ok (.inl answer),⟨rest.flatten++tail,out',k'⟩,⟨input,printed'⟩) := by
  have hlen : ∀ l ∈ answer::lines, l.length < n := by
    intro l hl
    have := (List.sublist_flatten_of_mem hl).length_le
    omega
  have hanswer := hlines answer List.mem_cons_self
  rw [afterResponse] at hafter
  rw [List.flatten_cons, List.append_assoc]
  split at hafter
  · rename_i hstart
    obtain ⟨items,last,rfl,hlast,hitems⟩ := afterList_some hafter
    have hbegin : getCode stray answer = idListBegin := by simpa [isListStart] using hstart
    have hcount : items.length+1 < n := by
      have hsum := lines_count_le hlines
      simp only [List.length_cons, List.length_append] at hsum
      omega
    obtain ⟨out',k',hturn⟩ := run_clientTurn_list stray d hd hne hanswer hbegin
      (hlines last (by simp)) hlast (hlen answer (by simp)) (hlen last (by simp)) hcount
      (fun l hl => ⟨hlines l (by simp [hl]),hitems l hl,hlen l (by simp [hl])⟩) response
      (rest.flatten++tail) input printed out k
    have hsplit : answer++((items++last::rest).flatten++tail) =
        answer++(items.flatten++last++(rest.flatten++tail)) := by simp
    rw [hsplit]
    exact ⟨out',k',_,hturn⟩
  · rename_i hstart
    cases hafter
    obtain ⟨out',k',hturn⟩ := run_clientTurn_line stray d hd hne hanswer
      (by simpa [isListStart] using hstart) (hlen answer (by simp)) response
      (lines.flatten++tail) input printed out k
    exact ⟨out',k',_,hturn⟩

theorem afterResponse_suffix {answer : Text} {lines rest : List Text}
    (h : afterResponse stray answer lines = some rest) : rest <:+ lines := by
  rw [afterResponse] at h
  split at h
  · obtain ⟨items,last,rfl,-,-⟩ := afterList_some h
    exact ⟨items++[last],by simp⟩
  · cases h
    exact List.suffix_refl _

theorem response_reached (hd : d.Reliable) {message : Text} (hcode : getCode stray message = idQuit)
    (tail : Text) (input lines : List Text) (hlines : ∀ l ∈ lines, IsLine l)
    (hn : lines.flatten.length < n) (hmem : message ∈ responses stray input lines) {j : ℕ}
    {response last : Text} {out : Text} {k : ℕ} {printed : List Text}
    (h : AtLoop stray d n typed stream j response last ⟨lines.flatten++tail,out,k⟩ ⟨input,printed⟩) :
    ∃ j' response' w c, AtLoop stray d n typed stream j' response' message w c := by
  induction input generalizing lines j response last out k printed with
  | nil => simp [responses] at hmem
  | cons line input ih =>
    cases lines with
    | nil => simp [responses] at hmem
    | cons answer lines =>
      by_cases hne : line = []
      · simp [responses, hne] at hmem
      · rw [responses, if_neg hne] at hmem
        cases hafter : afterResponse stray answer lines with
        | none =>
          rw [hafter, List.mem_singleton] at hmem
          rw [afterResponse, ← hmem, goodbye_no_list hcode] at hafter
          cases hafter
        | some rest =>
          obtain ⟨out',k',printed',hturn⟩ := turn_goes_on hd hne hlines hn hafter tail out response
            input printed k
          have hnext := AtLoop.turn h hturn
          rw [hafter] at hmem
          rcases List.mem_cons.mp hmem with rfl | hmem
          · exact ⟨_,_,_,_,hnext⟩
          · have hsub := (afterResponse_suffix hafter).sublist
            have hlen := (hsub.trans (List.sublist_cons_self answer lines)).flatten.length_le
            exact ih rest (fun l hl => hlines l (List.mem_cons_of_mem _ (hsub.subset hl)))
              (by omega) hmem hnext

theorem message_reached (hd : d.Reliable) {message : Text} (hcode : getCode stray message = idQuit)
    (hmem : message ∈ messages stray typed stream) (hn : stream.length < n) :
    ∃ j response w c, AtLoop stray d n typed stream j response message w c := by
  have hjoin := splitLines_join stream
  have hlines := splitLines_lines stream
  rw [messages] at hmem
  cases hsplit : (splitLines stream).1 with
  | nil =>
    rw [hsplit] at hmem
    cases hmem
  | cons greeting lines =>
    rw [hsplit] at hjoin hlines hmem
    have hlen := congrArg List.length hjoin
    rw [List.flatten_cons, List.append_assoc] at hjoin
    simp only [List.flatten_cons, List.length_append] at hlen
    obtain ⟨k,hk⟩ := run_receive_isLine d (hlines greeting List.mem_cons_self) (n := n) (by omega)
      (lines.flatten++(splitLines stream).2) [] 0 ⟨typed,[]⟩
    rw [hjoin] at hk
    have hhello : AtLoop stray d n typed stream 0 [] greeting
        ⟨lines.flatten++(splitLines stream).2,[],k⟩ ⟨typed,[greeting]⟩ := by
      apply AtLoop.hello
      rw [receiveHello, run_bind, hk]
      rfl
    rcases List.mem_cons.mp hmem with rfl | hmem
    · exact ⟨_,_,_,_,hhello⟩
    · exact response_reached hd hcode _ typed lines
        (fun l hl => hlines l (List.mem_cons_of_mem _ hl)) (by omega) hmem hhello

/-- A client obeys the goodbyes of its server exactly when it gets none. -/
theorem obeys_goodbye_iff (stray : Text → ℕ → UInt8) {d : Delivery} (hd : d.Reliable)
    (typed : List Text) (stream : Text) :
    ObeysGoodbye stray d typed stream ↔
      ∀ message ∈ messages stray typed stream, getCode stray message ≠ idQuit := by
  constructor
  · intro hobeys message hmem hcode
    obtain ⟨j,response,w,c,hat⟩ := message_reached (n := stream.length+1) hd hcode hmem (by omega)
    obtain ⟨m,hleaves⟩ := hobeys _ j response message w c hat hcode
    exact turn_reads response w c m hleaves
  · intro hnone n j response message w c hat hcode
    exact absurd hcode (hnone message (atLoop_message hat).1)

end Client

theorem obeys_goodbye_iff_help :
    ObeysGoodbye noStray byteByByte [text "HELP"] (text "220 hello\n214 commands\n") := by
  apply (obeys_goodbye_iff noStray byteByByte_reliable _ _).mpr
  decide

/-- After the answer to a `QUIT` the client waits for its user. -/
theorem goodbye_ignored :
    ¬ ObeysGoodbye noStray byteByByte [text "QUIT"] (text "220 hello\n221 goodbye\n") := by
  intro hobeys
  have hmem : text "221 goodbye\n" ∈
      messages noStray [text "QUIT"] (text "220 hello\n221 goodbye\n") := by decide
  obtain ⟨j,response,w,c,hat⟩ := message_reached (d := byteByByte) byteByByte_reliable (by decide)
    hmem (Nat.lt_succ_self _)
  obtain ⟨m,hleaves⟩ := hobeys _ j response _ w c hat (by decide)
  exact turn_reads response w c m hleaves

end Workshop.FtpGoodbye
