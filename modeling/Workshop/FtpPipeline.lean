import Workshop.FtpStream
import Workshop.FtpNames

/-!
# Lines sent ahead of their answers

A client may send all its lines before it reads an answer. The lines arrive
one by one as they were sent, and the session handles them in order up to the
line that closes it. The reference is `respond_query` applied to these lines
one after another, without a connection.
-/

set_option autoImplicit false

namespace Workshop.FtpPipeline
open Workshop.CMemory Workshop.InteractiveProgram Workshop.ByteChannel
open Workshop.FtpConfig Workshop.FtpCommand Workshop.FtpDirectories Workshop.FtpServer
open Workshop.FtpContract Workshop.FtpNetwork Workshop.FtpStream Workshop.FtpNames

def sendLines : List Text → Program (net noCalls) Halt Unit
  | [] => .ret ()
  | line::lines => protocolSendString line >>= fun _ => sendLines lines

def receiveLines (n : ℕ) : ℕ → Program (net noCalls) Halt (List Text)
  | 0 => .ret []
  | m+1 => protocolReceiveString n >>= fun line =>
      receiveLines n m >>= fun lines => .ret (line::lines)

def sentLines (d : Delivery) (lines : List Text) : Text :=
  (run (wired d noAnswers) (sendLines lines) (⟨[],[],0⟩,())).2.1.outgoing

def receivedLines (d : Delivery) (n m : ℕ) (stream : Text) : Except Halt (List Text) :=
  (run (wired d noAnswers) (receiveLines n m) (⟨stream,[],0⟩,())).1

theorem run_sendLines (d : Delivery) (hd : d.Reliable) (lines : List Text) (w : Wire) :
    ∃ k, run (wired d noAnswers) (sendLines lines) (w,()) =
      (.ok (),⟨w.incoming,w.outgoing++lines.flatMap transmitted,k⟩,()) := by
  induction lines generalizing w with
  | nil => exact ⟨w.calls,by simp [sendLines]⟩
  | cons line lines ih =>
    obtain ⟨k1,h1⟩ := run_socketSend d noAnswers hd line w ()
    obtain ⟨k,hk⟩ := ih ⟨w.incoming,w.outgoing++transmitted line,k1⟩
    refine ⟨k,?_⟩
    rw [sendLines, run_bind, h1, andThen_ok, hk, List.append_assoc, List.flatMap_cons]

theorem sentLines_eq {d : Delivery} (hd : d.Reliable) (lines : List Text) :
    sentLines d lines = lines.flatMap transmitted := by
  obtain ⟨k,hk⟩ := run_sendLines d hd lines ⟨[],[],0⟩
  rw [sentLines, hk]
  rfl

theorem transmitted_lines {lines : List Text} (h : ∀ l ∈ lines, l.length < 2^31) :
    lines.flatMap transmitted = lines.flatten := by
  induction lines with
  | nil => rfl
  | cons l lines ih =>
    obtain ⟨hl,hlines⟩ := List.forall_mem_cons.mp h
    rw [List.flatMap_cons, transmitted_small hl, ih hlines, List.flatten_cons]

/-- Nothing is missing on the connection only if every line is there whole. -/
theorem whole_lines {lines : List Text}
    (h : lines.flatten.length ≤ (lines.flatMap transmitted).length) :
    ∀ l ∈ lines, l.length < 2^31 := by
  have hle : ∀ ls : List Text, (ls.flatMap transmitted).length ≤ ls.flatten.length := by
    intro ls
    induction ls with
    | nil => simp
    | cons l ls ih =>
      have := transmitted_le l
      simp only [List.flatMap_cons, List.flatten_cons, List.length_append]
      omega
  induction lines with
  | nil => simp
  | cons l lines ih =>
    have hl := transmitted_le l
    have hrest := hle lines
    simp only [List.flatMap_cons, List.flatten_cons, List.length_append] at h
    rw [List.forall_mem_cons]
    exact ⟨transmitted_whole (by omega),ih (by omega)⟩

theorem run_receiveLines (d : Delivery) (lines : List Text) (hlines : ∀ l ∈ lines, IsLine l)
    {n : ℕ} (hn : ∀ l ∈ lines, l.length < n) (rest out : Text) (k : ℕ) :
    ∃ k', run (wired d noAnswers) (receiveLines n lines.length) (⟨lines.flatten++rest,out,k⟩,()) =
      (.ok lines,⟨rest,out,k'⟩,()) := by
  induction lines generalizing k with
  | nil => exact ⟨k,by simp [receiveLines]⟩
  | cons l lines ih =>
    obtain ⟨hl,hrest⟩ := List.forall_mem_cons.mp hlines
    obtain ⟨hln,hshort⟩ := List.forall_mem_cons.mp hn
    obtain ⟨body,hbody,rfl⟩ := hl
    rw [List.length_append, List.length_singleton] at hln
    have h1 := run_receive_line d noAnswers body (lines.flatten++rest) out hbody n hln k ()
    obtain ⟨k',hk⟩ := ih hrest hshort (k+body.length+1)
    refine ⟨k',?_⟩
    have hsplit : ((body++[newline])::lines).flatten++rest =
        body++newline::(lines.flatten++rest) := by simp
    rw [List.length_cons, receiveLines, hsplit, run_bind, h1, andThen_ok, run_bind, hk]
    rfl

theorem receivedLines_prefix (d : Delivery) (n m : ℕ) {lines : List Text} {w : Wire}
    (h : (run (wired d noAnswers) (receiveLines n m) (w,())).1 = .ok lines) :
    lines.flatten.length ≤ w.incoming.length := by
  induction m generalizing lines w with
  | zero =>
    cases h
    simp
  | succ m ih =>
    obtain ⟨stream,out,k⟩ := w
    rw [receiveLines, run_bind] at h
    by_cases hnl : newline ∈ stream
    · obtain ⟨body,rest,hbody,rfl⟩ := first_newline hnl
      have hfirst := run_receive_first d noAnswers body rest out hbody n k ()
      by_cases hn : body.length+1 < n
      · have h1 := run_receive_line d noAnswers body rest out hbody n hn k ()
        rw [h1, andThen_ok, run_bind] at h
        rcases hr : run (wired d noAnswers) (receiveLines n m) (⟨rest,out,k+body.length+1⟩,())
          with ⟨e | ls,ws⟩
        · rw [hr] at h
          cases h
        · have hih : ls.flatten.length ≤ rest.length :=
            ih (w := ⟨rest,out,k+body.length+1⟩) (by rw [hr])
          rw [hr] at h
          cases h
          simp only [List.flatten_cons, List.length_append, List.length_cons, List.length_nil]
          omega
      · rw [if_neg hn] at hfirst
        rcases hr : run (wired d noAnswers) (protocolReceiveString n)
          (⟨body++newline::rest,out,k⟩,()) with ⟨e | l,ws⟩
        · rw [hr] at h
          cases h
        · rw [hr] at hfirst
          cases hfirst
    · have hnone := run_receive_unended d noAnswers stream out hnl n k ()
      rcases hr : run (wired d noAnswers) (protocolReceiveString n) (⟨stream,out,k⟩,())
        with ⟨e | l,ws⟩
      · rw [hr] at h
        cases h
      · rw [hr] at hnone
        cases hnone

def respondAll (cfg : Config) : List Text → Client → Session Client
  | [], cli => .ret cli
  | query::queries, cli => answerQuery cfg query cli >>= fun cli => respondAll cfg queries cli

def direct : Handler server Halt (Text × Directories)
  | .receiveString, s => (.error .running,s)
  | .sendString cmd, s => (.ok true,s.1++transmitted cmd,s.2)
  | .addDirectory d, s => (.ok (addDirectory s.2 d).1,s.1,(addDirectory s.2 d).2)
  | .removeDirectory d, s => (.ok (removeDirectory s.2 d).1,s.1,(removeDirectory s.2 d).2)
  | .directoriesSize, s => (.ok (directoriesSize s.2),s)
  | .getList, s => (.ok (getList s.2),s)
  | .note _, s => (.ok (),s)

def directoryAnswers : Shared Directories
  | .receiveString, s => ([],s)
  | .sendString _, s => (true,s)
  | .addDirectory d, s => addDirectory s d
  | .removeDirectory d, s => removeDirectory s d
  | .directoriesSize, s => (directoriesSize s,s)
  | .getList, s => (getList s,s)
  | .note _, s => ((),s)

def handled : List Text → List Text
  | [] => []
  | query::queries =>
    if query.length ≤ 1 then []
    else if createCommand query = .ok .quit then [query] else query::handled queries

def unread : List Text → List Text
  | [] => []
  | query::queries =>
    if query.length ≤ 1 ∨ createCommand query = .ok .quit then queries else unread queries

/-- Calls of a session on a connection that holds, where no directory without a
name is ever made. -/
def unbroken : Contract server Unit where
  may _ op := match op with
    | .receiveString => False
    | .addDirectory d => d ≠ []
    | _ => True
  rely _ op r := match op, r with
    | .sendString _, returned => returned = true
    | .removeDirectory d, removed => d = [] → removed = false
    | _, _ => True
  view l _ _ := l

theorem unbroken_quiet {cmd : Command} (h : cmd ≠ .mkd []) : Quiet unbroken () cmd := by
  intro op hop
  refine ⟨?_,fun _ _ => rfl⟩
  cases op with
  | receiveString => cases hop
  | addDirectory d =>
    rintro rfl
    exact h hop
  | _ => trivial

theorem unbroken_reason {cfg : Config} (hcfg : cfg.DefinesAll) {cmd : Command} (h : cmd ≠ .mkd [])
    {e : Halt} (hr : Reason unbroken () cfg cmd e) : False := by
  cases hr with
  | refused t hrely => cases hrely
  | missing hmissing => exact hmissing hcfg
  | nameless hname =>
    rcases hname with hmkd | ⟨-,hremoved⟩
    · exact h hmkd
    · cases hremoved rfl

theorem unbroken_hello {cfg : Config} (hcfg : cfg.DefinesAll) :
    Keeps unbroken (fun _ _ => True) (fun _ _ => False) (sendHello cfg) () := by
  have hinvalid : Command.invalid ≠ .mkd [] := nofun
  apply keeps_mono (fun _ _ _ => trivial) _ (keeps_sendHello cfg (unbroken_quiet hinvalid))
  intro e _ h
  exact unbroken_reason hcfg hinvalid h.2

theorem unbroken_answer {cfg : Config} (hcfg : cfg.DefinesAll) {query : Text}
    (hline : IsLine query) (hlen : 1 < query.length) (hmkd : query ≠ text "MKD\n") (cli : Client) :
    Keeps unbroken (fun cli' _ => cli'.quit = (cli.quit || createCommand query = .ok .quit))
      (fun _ _ => False) (answerQuery cfg query cli) () := by
  have hne : query ≠ [] := by
    rintro rfl
    simp at hlen
  obtain ⟨cmd,hcmd⟩ := create_total hne
  have hnamed : cmd ≠ .mkd [] := by
    rintro rfl
    rcases create_mkd hline hcmd with h | h
    · exact hmkd h.1
    · simp at h
  apply keeps_mono _ _ (keeps_answer cfg hcmd trivial (unbroken_quiet hnamed) fun _ _ => trivial)
  · intro cli' _ h
    obtain ⟨r,hr,rfl,-⟩ := h
    rw [plainReply_quit hr, hcmd]
    simp
  · intro e _ h
    exact unbroken_reason hcfg hnamed h.2

section Sessions
variable (d : Delivery) (hd : d.Reliable) (n : ℕ)
include hd

theorem run_direct {α : Type} {Q : α → Unit → Prop} {p : Session α}
    (h : Keeps unbroken Q (fun _ _ => False) p ()) (unread out : Text) (k : ℕ) (s : Directories)
    (hs : [] ∉ s) :
    ∃ a out' k' s', run direct p (out,s) = (.ok a,out',s') ∧
      run (sessionHandler d directoryAnswers n) p (⟨unread,out,k⟩,s) =
        (.ok a,⟨unread,out',k'⟩,s') ∧ Q a () ∧ [] ∉ s' := by
  induction p generalizing out k s with
  | ret a => exact ⟨a,out,k,s,rfl,rfl,h,hs⟩
  | fail e => exact h.elim
  | call op next ih =>
    cases op with
    | receiveString => exact h.1.elim
    | sendString cmd =>
      obtain ⟨k1,h1⟩ := run_sendString d (answering directoryAnswers)
        (answering_ok directoryAnswers) hd n cmd ⟨unread,out,k⟩ s
      obtain ⟨a,out',k',s',hdir,hrun,hQ,hs'⟩ := ih true (h.2 true rfl) (out++transmitted cmd) k1 s hs
      refine ⟨a,out',k',s',hdir,?_,hQ,hs'⟩
      rw [run_call, sessionHandler, h1]
      exact hrun
    | addDirectory dir =>
      have hs1 : [] ∉ (addDirectory s dir).2 := by
        have hne : dir ≠ [] := h.1
        simp [addDirectory_eq, hs, Ne.symm hne]
      exact ih _ (h.2 _ trivial) out k _ hs1
    | removeDirectory dir =>
      have hs1 : [] ∉ (removeDirectory s dir).2 := by
        rw [removeDirectory_eq]
        exact fun hmem => hs (Finset.mem_of_mem_erase hmem)
      have hrely : dir = [] → (removeDirectory s dir).1 = false := by
        rintro rfl
        rw [removeDirectory_eq]
        exact decide_eq_false hs
      exact ih _ (h.2 _ hrely) out k _ hs1
    | directoriesSize => exact ih _ (h.2 _ trivial) out k s hs
    | getList => exact ih _ (h.2 _ trivial) out k s hs
    | note e => exact ih _ (h.2 _ trivial) out k s hs

/-- The loop handles the lines up to the closing one as the reference does,
and leaves the others unread. -/
theorem loop_handles {cfg : Config} (hcfg : cfg.DefinesAll) (lines : List Text)
    (hlines : ∀ q ∈ lines, IsLine q) (hshort : ∀ q ∈ lines, q.length < n)
    (hmkd : text "MKD\n" ∉ lines) (hend : ∃ q ∈ lines, EndsSession q) (m : ℕ)
    (hm : lines.length < m) {cli : Client} (hcli : cli.quit = false) (out : Text) (k : ℕ)
    (s : Directories) (hs : [] ∉ s) :
    ∃ cli' out' k' s',
      run direct (respondAll cfg (handled lines) cli) (out,s) = (.ok cli',out',s') ∧
      run (sessionHandler d directoryAnswers n) (Program.iterate .running (serveQuery cfg) m cli)
        (⟨lines.flatten,out,k⟩,s) =
        (.ok { cli' with quit := true },⟨(unread lines).flatten,out',k'⟩,s') := by
  induction lines generalizing m cli out k s with
  | nil =>
    obtain ⟨q,hq,-⟩ := hend
    cases hq
  | cons query lines ih =>
    obtain ⟨m,rfl⟩ : ∃ m', m = m'+1+1 := ⟨m-2,by rw [List.length_cons] at hm; omega⟩
    obtain ⟨hq,hrest⟩ := List.forall_mem_cons.mp hlines
    obtain ⟨hqn,hshort⟩ := List.forall_mem_cons.mp hshort
    obtain ⟨hqm,hmkd⟩ := not_or.mp (fun h => hmkd (List.mem_cons.mpr h))
    rw [List.flatten_cons]
    by_cases hlen : query.length ≤ 1
    · have hk := turn_empty cfg d directoryAnswers n hcli hq hqn hlen (m+1) lines.flatten out k s
      refine ⟨cli,out,k+query.length,s,?_,?_⟩
      · rw [handled, if_pos hlen]
        rfl
      · rw [hk, turn_quit cfg d directoryAnswers n rfl, unread, if_pos (.inl hlen)]
    · have h1 := turn_line cfg d directoryAnswers n hcli hq hqn (by omega) (m+1)
        lines.flatten out k s
      obtain ⟨cli1,out1,k2,s1,hdir,hrun,hquit,hs1⟩ := run_direct d hd n
        (unbroken_answer hcfg hq (by omega) (Ne.symm hqm) cli) lines.flatten out _ s hs
      rw [h1, hrun, andThen_ok, handled, unread, if_neg hlen]
      by_cases hc : createCommand query = .ok .quit
      · have hquit1 : cli1.quit = true := by simp [hquit, hc]
        refine ⟨cli1,out1,k2,s1,?_,?_⟩
        · rw [if_pos hc, respondAll, run_bind, hdir]
          rfl
        · rw [turn_quit cfg d directoryAnswers n hquit1, if_pos (.inr hc), ← hquit1]
      · have hquit1 : cli1.quit = false := by simp [hquit, hc, hcli]
        have hend1 : ∃ q ∈ lines, EndsSession q := by
          obtain ⟨q,hmem,hends⟩ := hend
          rcases List.mem_cons.mp hmem with rfl | hmem
          · rcases hends with h | h
            · exact absurd h hlen
            · exact absurd h hc
          · exact ⟨q,hmem,hends⟩
        obtain ⟨cli',out',k',s',hdir',hrun'⟩ := ih hrest hshort hmkd hend1 (m+1)
          (by rw [List.length_cons] at hm; omega) hquit1 out1 k2 s1 hs1
        refine ⟨cli',out',k',s',?_,?_⟩
        · rw [if_neg hc, respondAll, run_bind, hdir, andThen_ok, hdir']
        · rw [hrun', if_neg (not_or.mpr ⟨hlen,hc⟩)]

theorem session_handles {cfg : Config} (hcfg : cfg.DefinesAll) (lines : List Text)
    (hlines : ∀ q ∈ lines, IsLine q) (hn : lines.flatten.length < n)
    (hmkd : text "MKD\n" ∉ lines) (hend : ∃ q ∈ lines, EndsSession q)
    (s : Directories) (hs : [] ∉ s) :
    ∃ cli out k s',
      run direct (sendHello cfg >>= fun _ => respondAll cfg (handled lines) Client.new) ([],s) =
        (.ok cli,out,s') ∧
      run (sessionHandler d directoryAnswers n) (sendHello cfg >>= fun _ =>
          Program.iterate .running (serveQuery cfg) n Client.new) (⟨lines.flatten,[],0⟩,s) =
        (.ok { cli with quit := true },⟨(unread lines).flatten,out,k⟩,s') := by
  have hshort : ∀ q ∈ lines, q.length < n := by
    intro q hq
    have := (List.sublist_flatten_of_mem hq).length_le
    omega
  have hcount := lines_count_le hlines
  obtain ⟨_,out1,k1,s1,hdir,hrun,-,hs1⟩ := run_direct d hd n (unbroken_hello hcfg) lines.flatten []
    0 s hs
  obtain ⟨cli',out',k',s',hdir',hrun'⟩ := loop_handles d hd n hcfg lines hlines hshort hmkd hend n
    (by omega) (show Client.new.quit = false from rfl) out1 k1 s1 hs1
  refine ⟨cli',out',k',s',?_,?_⟩
  · rw [run_bind, hdir, andThen_ok, hdir']
  · rw [run_bind, hrun, andThen_ok, hrun']

end Sessions

theorem client_returns (d : Delivery) (n : ℕ) {cfg : Config} {ws ws' : Wire × Directories} {cli : Client}
    (h : run (sessionHandler d directoryAnswers n) (sendHello cfg >>= fun _ =>
      Program.iterate .running (serveQuery cfg) n Client.new) ws = (.ok cli,ws')) :
    run (sessionHandler d directoryAnswers n) (respondClient cfg n) ws = (.ok (),ws') := by
  have hlet : ∀ op ws e, (sessionHandler d directoryAnswers n op ws).1 = .error e →
      catchException e = .fail e := by
    intro op ws e he
    rw [handler_error d directoryAnswers n op ws e he]
    rfl
  rw [run_bind] at h
  rw [respondClient, run_attempt _ _ _ _ hlet, run_bind]
  rcases hhello : run (sessionHandler d directoryAnswers n) (sendHello cfg) ws with ⟨e | u,ws1⟩
  · rw [hhello] at h
    cases h
  · rw [hhello, andThen_ok] at h
    rw [andThen_ok, run_bind, h]
    rfl

/-- Every delivery brings each line as it was sent. -/
def LinesReceived (lines : List Text) : Prop :=
  ∀ d d' : Delivery, d.Reliable → ∀ n, lines.flatten.length < n →
    receivedLines d' n lines.length (sentLines d lines) = .ok lines

/-- A session whose directories all have names deals with the lines, sent ahead
of it, as `respond_query` does with the ones up to the closing line: the same
replies, client record and directories. The other lines stay unread. -/
def SessionHandles (lines : List Text) : Prop :=
  ∀ (cfg : Config) (d d' : Delivery) (s : Directories) (n : ℕ),
    cfg.DefinesAll → d.Reliable → d'.Reliable → [] ∉ s → text "MKD\n" ∉ lines →
    (∃ q ∈ lines, EndsSession q) → lines.flatten.length < n →
    ∃ cli out k s',
      run direct (sendHello cfg >>= fun _ => respondAll cfg (handled lines) Client.new) ([],s) =
        (.ok cli,out,s') ∧
      run (sessionHandler d' directoryAnswers n) (sendHello cfg >>= fun _ =>
          Program.iterate .running (serveQuery cfg) n Client.new) (⟨sentLines d lines,[],0⟩,s) =
        (.ok { cli with quit := true },⟨(unread lines).flatten,out,k⟩,s') ∧
      run (sessionHandler d' directoryAnswers n) (respondClient cfg n)
          (⟨sentLines d lines,[],0⟩,s) =
        (.ok (),⟨(unread lines).flatten,out,k⟩,s')

theorem received_short {lines : List Text} (h : LinesReceived lines) :
    ∀ l ∈ lines, l.length < 2^31 := by
  have hrun := h byteByByte byteByByte byteByByte_reliable _ (Nat.lt_succ_self _)
  have hle := receivedLines_prefix byteByByte _ _ hrun
  rw [sentLines_eq byteByByte_reliable] at hle
  exact whole_lines hle

theorem short_received {lines : List Text} (hlines : ∀ l ∈ lines, IsLine l)
    (h : ∀ l ∈ lines, l.length < 2^31) : LinesReceived lines := by
  intro d d' hd n hn
  have hshort : ∀ l ∈ lines, l.length < n := by
    intro l hl
    have := (List.sublist_flatten_of_mem hl).length_le
    omega
  obtain ⟨k,hk⟩ := run_receiveLines d' lines hlines hshort [] [] 0
  rw [List.append_nil] at hk
  rw [receivedLines, sentLines_eq hd, transmitted_lines h, hk]

theorem short_handled {lines : List Text} (hlines : ∀ l ∈ lines, IsLine l)
    (h : ∀ l ∈ lines, l.length < 2^31) : SessionHandles lines := by
  intro cfg d d' s n hcfg hd hd' hs hmkd hend hn
  obtain ⟨cli,out,k,s',hdir,hrun⟩ := session_handles d' hd' n hcfg lines hlines hn hmkd hend s hs
  refine ⟨cli,out,k,s',hdir,?_,?_⟩
  · rw [sentLines_eq hd, transmitted_lines h, hrun]
  · rw [sentLines_eq hd, transmitted_lines h, client_returns d' n hrun]

/-- Lines arrive as they were sent, and a session handles them up to the closing
one, exactly when an `int` holds the length of each. -/
theorem lines_handled_iff {lines : List Text} (hlines : ∀ l ∈ lines, IsLine l) :
    (LinesReceived lines ∧ SessionHandles lines) ↔ ∀ l ∈ lines, l.length < 2^31 := by
  constructor
  · intro h
    exact received_short h.1
  · intro h
    exact ⟨short_received hlines h,short_handled hlines h⟩

theorem lines_handled_iff_quit :
    LinesReceived [text "HELP\n",text "QUIT\n",text "SYST\n"] ∧
      SessionHandles [text "HELP\n",text "QUIT\n",text "SYST\n"] := by
  apply (lines_handled_iff _).mpr
  · decide
  · intro l hl
    simp only [List.mem_cons, List.not_mem_nil, or_false] at hl
    rcases hl with rfl | rfl | rfl
    · exact ⟨text "HELP",by decide,by decide⟩
    · exact ⟨text "QUIT",by decide,by decide⟩
    · exact ⟨text "SYST",by decide,by decide⟩

theorem long_line_lost : ∃ l, IsLine l ∧ ¬ (LinesReceived [l] ∧ SessionHandles [l]) := by
  obtain ⟨l,⟨body,_,hbody,hl⟩,hlen⟩ := long_name
  refine ⟨l,⟨body,hbody,hl⟩,?_⟩
  intro h
  have hshort := received_short h.1 l (by simp)
  omega

end Workshop.FtpPipeline
