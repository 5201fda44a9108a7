import Workshop.FtpClient
import Workshop.FtpNames

/-!
# One query and the reads of its client

What `respond_query` sends for a query is read by one turn of the client, to
the last byte. The client reads one line, and the lines of a list as well when
the code of the first one announces it.
-/

set_option autoImplicit false

namespace Workshop.FtpLockstep
open Workshop.CMemory Workshop.InteractiveProgram Workshop.ByteChannel
open Workshop.FtpConfig Workshop.FtpCommand Workshop.FtpDirectories Workshop.FtpServer
open Workshop.FtpNetwork Workshop.FtpShared Workshop.FtpNames Workshop.FtpClient

def Lined (s : Directories) : Prop := ∀ d ∈ s, IsLine d

theorem names_lined {s : Directories} (h : Names s) : Lined s := fun d hd => isName_isLine (h d hd)

def answerLine (cfg : Config) (cli : Client) (s : Directories) (cmd : Command) : Text :=
  match cli.logged, cmd with
  | true, .mkd d => mkdAnswer cfg d (d ∉ s)
  | true, .rmd d => rmdAnswer cfg d (d ∈ s)
  | _, _ =>
    match plainReply cfg cli cmd with
    | .ok r => reply cfg r.id r.message
    | .error _ => []

def answerSize (cfg : Config) (cli : Client) (s : Directories) (cmd : Command) : ℕ :=
  match cli.logged, cmd with
  | true, .mkd d => if d ∈ s then replySize cfg msgMkdFailure else replyDirSize cfg d msgMkdSuccess
  | true, .rmd d => if d ∈ s then replyDirSize cfg d msgRmdSuccess else replySize cfg msgRmdFailed
  | _, _ =>
    match plainReply cfg cli cmd with
    | .ok r => replySize cfg r.message
    | .error _ => 0

theorem answer_plain {cfg : Config} {cli : Client} {cmd : Command} {r : Reply} (s : Directories)
    (hplain : cli.logged = false ∨ usesDirectories cmd = false)
    (hr : plainReply cfg cli cmd = .ok r) :
    answerLine cfg cli s cmd = reply cfg r.id r.message ∧
      answerSize cfg cli s cmd = replySize cfg r.message := by
  cases hl : cli.logged with
  | false => simp [answerLine, answerSize, hl, hr]
  | true =>
    have hu : usesDirectories cmd = false := hplain.resolve_left (by simp [hl])
    cases cmd with
    | mkd d => cases hu
    | rmd d => cases hu
    | _ => simp [answerLine, answerSize, hr]

section Logged
variable (cfg : Config) {cli : Client} (s : Directories) (dirname : Text) (hl : cli.logged = true)
include hl

theorem answer_mkd :
    answerLine cfg cli s (.mkd dirname) = mkdAnswer cfg dirname (dirname ∉ s) ∧
      answerSize cfg cli s (.mkd dirname) =
        if dirname ∈ s then replySize cfg msgMkdFailure
        else replyDirSize cfg dirname msgMkdSuccess := by
  simp [answerLine, answerSize, hl]

theorem answer_rmd :
    answerLine cfg cli s (.rmd dirname) = rmdAnswer cfg dirname (dirname ∈ s) ∧
      answerSize cfg cli s (.rmd dirname) =
        if dirname ∈ s then replyDirSize cfg dirname msgRmdSuccess
        else replySize cfg msgRmdFailed := by
  simp [answerLine, answerSize, hl]

end Logged

def Lists (cli : Client) (cmd : Command) : Prop := cli.logged = true ∧ cmd = .list

instance (cli : Client) (cmd : Command) : Decidable (Lists cli cmd) :=
  inferInstanceAs (Decidable (_ ∧ _))

/-- The entries of a list when the set is `s` at first and `s'` when the list is
made. A set that is empty at first is not listed any more. -/
def entries (s s' : Directories) : List Text :=
  if s = ∅ then [] else (ordered s').map fun d => dirFormat++d

def answerLines (cfg : Config) (cli : Client) (cmd : Command) (s s' : Directories) : List Text :=
  if Lists cli cmd then
    reply cfg idListBegin msgListBegin::entries s s'++[reply cfg idListEnd msgListEnd]
  else [answerLine cfg cli s cmd]

/-- All of the answer goes through `Socket::send`, and a set is not mistaken for
an empty one. -/
def Whole (cfg : Config) (cli : Client) (cmd : Command) (s s' : Directories) : Prop :=
  if Lists cli cmd then
    replySize cfg msgListBegin < 2^31 ∧ replySize cfg msgListEnd < 2^31 ∧
      (s ≠ ∅ → (0 < narrow s.card ∨ s' = ∅) ∧ listingSize s' < 2^31)
  else answerSize cfg cli s cmd < 2^31

/-- The directories of one exchange, which the other clients turn into `s'`
once the size was read. -/
def meanwhile (s' : Directories) : Shared Directories := fun op s =>
  match op with
  | .receiveString => ([],s)
  | .sendString _ => (true,s)
  | .addDirectory d => addDirectory s d
  | .removeDirectory d => removeDirectory s d
  | .directoriesSize => (directoriesSize s,s')
  | .getList => (getList s,s)
  | .note _ => ((),s)

def serverTurn (cfg : Config) (cli : Client) (query : Text) (d : Delivery) (s s' : Directories) :
    Except Halt Client × Wire × Directories :=
  run (wired d (answering (meanwhile s'))) ((respondQuery cfg query cli).interp (overSocket 0))
    (⟨[],[],0⟩,s)

/-- However the transfers are cut: the server answers the query, and the turn of
the client that sent it prints the lines of the answer and leaves what follows
them on the connection. -/
def Lockstep (cfg : Config) (cli : Client) (query : Text) (cmd : Command) (s s' : Directories) :
    Prop :=
  ∀ d d' : Delivery, d.Reliable → d'.Reliable →
    ∃ cli' w t, serverTurn cfg cli query d s s' = (.ok cli',w,t) ∧
      ∀ stray rest response, ∃ N, ∀ n ≥ N, ∃ last out k,
        run (wired d' console) (clientTurn stray n response)
          (⟨w.outgoing++rest,[],0⟩,⟨[query.dropLast],[]⟩) =
        (.ok (.inl last),⟨rest,out,k⟩,⟨[],answerLines cfg cli cmd s s'⟩)

section Server
variable (cfg : Config) (d : Delivery) (hd : d.Reliable) (s' : Directories)
include hd

theorem run_text (t : Text) (w : Wire) (s : Directories) :
    ∃ k, run (wired d (answering (meanwhile s'))) ((sendString t).interp (overSocket 0)) (w,s) =
      (.ok (),⟨w.incoming,w.outgoing++transmitted t,k⟩,s) := by
  obtain ⟨k,hk⟩ := run_sendString d (answering (meanwhile s')) (answering_ok _) hd 0 t w s
  refine ⟨k,?_⟩
  rw [sendString, Program.interp, run_bind, hk]
  rfl

theorem run_message {message : Text} (hk : cfg.Defines message) (id : Text) (cli : Client)
    (w : Wire) (s : Directories) :
    ∃ k, run (wired d (answering (meanwhile s')))
        ((sendMessage cfg id message cli).interp (overSocket 0)) (w,s) =
      (.ok cli,⟨w.incoming,w.outgoing++transmitted (reply cfg id message),k⟩,s) := by
  obtain ⟨k,hk'⟩ := run_text d hd s' (reply cfg id message) w s
  refine ⟨k,?_⟩
  rw [sendMessage_eq hk, Program.interp_bind, run_bind, hk']
  rfl

theorem run_directory {message : Text} (hk : cfg.Defines message) (id : Text) {dirname : Text}
    (hdir : dirname ≠ []) (cli : Client) (w : Wire) (s : Directories) :
    ∃ k, run (wired d (answering (meanwhile s')))
        ((sendDirectory cfg id dirname message cli).interp (overSocket 0)) (w,s) =
      (.ok cli,⟨w.incoming,w.outgoing++transmitted (replyDir cfg id dirname message),k⟩,s) := by
  obtain ⟨k,hk'⟩ := run_text d hd s' (replyDir cfg id dirname message) w s
  refine ⟨k,?_⟩
  rw [sendDirectory_eq hk id hdir, Program.interp_bind, run_bind, hk']
  rfl

theorem run_sendList (w : Wire) (s : Directories) :
    ∃ k t, run (wired d (answering (meanwhile s'))) (sendList.interp (overSocket 0)) (w,s) =
      (.ok (),⟨w.incoming,
        w.outgoing++(if directoriesSize s > 0 then transmitted (getList s') else []),k⟩,t) := by
  have hsize : run (wired d (answering (meanwhile s'))) (overSocket 0 .directoriesSize) (w,s) =
      (.ok (directoriesSize s),w,s') := rfl
  rw [sendList, Program.interp, run_bind, hsize, andThen_ok]
  split
  · rename_i hpos
    obtain ⟨k,hk⟩ := run_text d hd s' (getList s') w s'
    have hget : run (wired d (answering (meanwhile s'))) (overSocket 0 .getList) (w,s') =
        (.ok (getList s'),w,s') := rfl
    rw [Program.interp, run_bind, hget, andThen_ok, hk]
    exact ⟨k,s',by simp⟩
  · exact ⟨w.calls,s',by simp [Program.interp]⟩

variable {cfg} {cli : Client} {query : Text} {cmd : Command}
  (hc : createCommand query = .ok cmd) (hall : cfg.DefinesAll) (s : Directories)
include hc hall

theorem server_list (hl : Lists cli cmd) :
    ∃ k t, serverTurn cfg cli query d s s' =
      (.ok cli,⟨[],transmitted (reply cfg idListBegin msgListBegin)++
        (if directoriesSize s > 0 then transmitted (getList s') else [])++
        transmitted (reply cfg idListEnd msgListEnd),k⟩,t) := by
  obtain ⟨hlogged,rfl⟩ := hl
  rw [serverTurn, respondQuery, hc, Program.lift_ok, Program.ret_bind, sendResponse,
    listSendResponse, whenLogged, if_pos hlogged, Program.interp_bind, run_bind]
  obtain ⟨k1,hk1⟩ := run_message cfg d hd s' (hall msgListBegin (by simp [messageKeys])) idListBegin
    cli ⟨[],[],0⟩ s
  obtain ⟨k2,t,hk2⟩ := run_sendList d hd s'
    ⟨[],[]++transmitted (reply cfg idListBegin msgListBegin),k1⟩ s
  rw [hk1, andThen_ok, Program.interp_bind, run_bind, hk2, andThen_ok]
  obtain ⟨k3,hk3⟩ := run_message cfg d hd s' (hall msgListEnd (by simp [messageKeys])) idListEnd cli
    ⟨[],[]++transmitted (reply cfg idListBegin msgListBegin)++
      (if directoriesSize s > 0 then transmitted (getList s') else []),k2⟩ t
  exact ⟨k3,t,hk3⟩

theorem server_line (hl : ¬ Lists cli cmd) (hs : Lined s)
    (hmkd : cli.logged = true → ∀ dirname, cmd = .mkd dirname → IsName dirname) :
    ∃ cli' k t, serverTurn cfg cli query d s s' =
      (.ok cli',⟨[],transmitted (answerLine cfg cli s cmd),k⟩,t) := by
  rw [serverTurn, respondQuery, hc, Program.lift_ok, Program.ret_bind]
  by_cases hplain : cli.logged = false ∨ usesDirectories cmd = false
  · obtain ⟨r,hr⟩ := plainReply_total (hall keyUser (by simp [messageKeys]))
      (hall keyPass (by simp [messageKeys])) cli cmd
    have hline := (answer_plain s hplain hr).1
    obtain ⟨k,hk⟩ := run_message cfg d hd s' (hall r.message (plainReply_key hr)) r.id r.after
      ⟨[],[],0⟩ s
    rw [sendResponse_plain cfg cli cmd hplain, hr, Program.lift_ok, Program.ret_bind, hline]
    exact ⟨_,k,s,hk⟩
  · obtain ⟨hlogged,hu⟩ := not_or.mp hplain
    rw [Bool.not_eq_false] at hlogged
    cases cmd with
    | list => exact absurd ⟨hlogged,rfl⟩ hl
    | mkd dirname =>
      have hne : dirname ≠ [] := by
        intro hnil
        exact isName_nil (hnil ▸ hmkd hlogged dirname rfl)
      have hadd : run (wired d (answering (meanwhile s'))) (overSocket 0 (.addDirectory dirname))
          (⟨[],[],0⟩,s) = (.ok (addDirectory s dirname).1,⟨[],[],0⟩,(addDirectory s dirname).2) := rfl
      rw [sendResponse, mkdSendResponse, whenLogged, if_pos hlogged, Program.interp, run_bind, hadd,
        andThen_ok, (answer_mkd cfg s dirname hlogged).1]
      by_cases hmem : dirname ∈ s
      · obtain ⟨k,hk⟩ := run_message cfg d hd s' (hall msgMkdFailure (by simp [messageKeys]))
          idMkdFailure cli ⟨[],[],0⟩ s
        simp only [addDirectory, hmem, not_true_eq_false, if_false, decide_false, mkdAnswer]
        exact ⟨_,k,s,hk⟩
      · obtain ⟨k,hk⟩ := run_directory cfg d hd s' (hall msgMkdSuccess (by simp [messageKeys]))
          idMkdSuccess hne cli ⟨[],[],0⟩ (insert dirname s)
        simp only [addDirectory, hmem, not_false_eq_true, if_true, decide_true, mkdAnswer]
        exact ⟨_,k,_,hk⟩
    | rmd dirname =>
      have hremove : run (wired d (answering (meanwhile s'))) (overSocket 0 (.removeDirectory dirname))
          (⟨[],[],0⟩,s) =
          (.ok (removeDirectory s dirname).1,⟨[],[],0⟩,(removeDirectory s dirname).2) := rfl
      rw [sendResponse, rmdSendResponse, whenLogged, if_pos hlogged, Program.interp, run_bind,
        hremove, andThen_ok, (answer_rmd cfg s dirname hlogged).1]
      by_cases hmem : dirname ∈ s
      · have hne : dirname ≠ [] := by
          intro hnil
          exact isLine_nil (hnil ▸ hs dirname hmem)
        obtain ⟨k,hk⟩ := run_directory cfg d hd s' (hall msgRmdSuccess (by simp [messageKeys]))
          idRmdSuccess hne cli ⟨[],[],0⟩ (s.erase dirname)
        simp only [removeDirectory, hmem, if_true, decide_true, rmdAnswer]
        exact ⟨_,k,_,hk⟩
      · obtain ⟨k,hk⟩ := run_message cfg d hd s' (hall msgRmdFailed (by simp [messageKeys]))
          idRmdFailure cli ⟨[],[],0⟩ s
        simp only [removeDirectory, hmem, if_false, decide_false, rmdAnswer]
        exact ⟨_,k,s,hk⟩
    | _ => exact absurd rfl hu

end Server

theorem isLine_append {w line : Text} (hw : newline ∉ w) (hline : IsLine line) :
    IsLine (w++line) := by
  obtain ⟨body,hbody,rfl⟩ := hline
  refine ⟨w++body,?_,by simp⟩
  intro h
  rcases List.mem_append.mp h with h | h
  · exact hw h
  · exact hbody h

section Lines
variable {cfg : Config} (hvalues : ∀ key ∈ messageKeys, IsLine (cfg.value key))
include hvalues

theorem reply_line {message : Text} (hkey : message ∈ messageKeys) {id : Text}
    (hid : newline ∉ id) : IsLine (reply cfg id message) := by
  rw [reply]
  apply isLine_append _ (hvalues message hkey)
  intro h
  rcases List.mem_append.mp h with h | h
  · exact hid h
  · revert h
    decide

theorem replyDir_line {message : Text} (hkey : message ∈ messageKeys) {id : Text}
    (hid : newline ∉ id) {dirname : Text} (hname : IsLine dirname) :
    IsLine (replyDir cfg id dirname message) := by
  obtain ⟨body,hbody,rfl⟩ := hname
  rw [replyDir]
  apply isLine_append _ (hvalues message hkey)
  have hparts : newline ∉ text " " ∧ newline ∉ text "\"" ∧ newline ∉ text "\" " := by decide
  simp [hid, hbody, hparts]

structure Plain (cfg : Config) (cli : Client) (s : Directories) (cmd : Command) : Prop where
  line : IsLine (answerLine cfg cli s cmd)
  size : (answerLine cfg cli s cmd).length = answerSize cfg cli s cmd
  code : ∀ stray, getCode stray (answerLine cfg cli s cmd) ≠ idListBegin

theorem plain_reply {cli : Client} {s : Directories} {cmd : Command} {id message : Text}
    (hkey : message ∈ messageKeys) (hid : id.length = 3 ∧ id ≠ idListBegin ∧ newline ∉ id)
    (hline : answerLine cfg cli s cmd = reply cfg id message)
    (hsize : answerSize cfg cli s cmd = replySize cfg message) : Plain cfg cli s cmd := by
  constructor
  · rw [hline]
    exact reply_line hvalues hkey hid.2.2
  · rw [hline, hsize, reply_size cfg hid.1]
  · intro stray
    rw [hline, reply, List.append_assoc, getCode_append stray hid.1]
    exact hid.2.1

theorem plain_directory {cli : Client} {s : Directories} {cmd : Command} {id message : Text}
    {dirname : Text} (hname : IsLine dirname) (hkey : message ∈ messageKeys)
    (hid : id.length = 3 ∧ id ≠ idListBegin ∧ newline ∉ id)
    (hline : answerLine cfg cli s cmd = replyDir cfg id dirname message)
    (hsize : answerSize cfg cli s cmd = replyDirSize cfg dirname message) :
    Plain cfg cli s cmd := by
  constructor
  · rw [hline]
    exact replyDir_line hvalues hkey hid.2.2 hname
  · rw [hline, hsize, replyDir_size cfg hid.1]
  · intro stray
    rw [hline, replyDir]
    simp only [List.append_assoc]
    rw [getCode_append stray hid.1]
    exact hid.2.1

theorem answer_plain_line {cli : Client} {s : Directories} {cmd : Command} (hall : cfg.DefinesAll)
    (hl : ¬ Lists cli cmd) (hs : Lined s)
    (hmkd : cli.logged = true → ∀ dirname, cmd = .mkd dirname → IsName dirname) :
    Plain cfg cli s cmd := by
  by_cases hplain : cli.logged = false ∨ usesDirectories cmd = false
  · obtain ⟨r,hr⟩ := plainReply_total (hall keyUser (by simp [messageKeys]))
      (hall keyPass (by simp [messageKeys])) cli cmd
    obtain ⟨hline,hsize⟩ := answer_plain s hplain hr
    exact plain_reply hvalues (plainReply_key hr) (plainIds_code r.id (plainReply_id hr)) hline hsize
  · obtain ⟨hlogged,hu⟩ := not_or.mp hplain
    rw [Bool.not_eq_false] at hlogged
    cases cmd with
    | list => exact absurd ⟨hlogged,rfl⟩ hl
    | mkd dirname =>
      obtain ⟨hline,hsize⟩ := answer_mkd cfg s dirname hlogged
      by_cases hmem : dirname ∈ s
      · have hline : answerLine cfg cli s (.mkd dirname) = reply cfg idMkdFailure msgMkdFailure := by
          rw [hline]
          simp [mkdAnswer, hmem]
        rw [if_pos hmem] at hsize
        exact plain_reply hvalues (by simp [messageKeys]) (by decide) hline hsize
      · have hline : answerLine cfg cli s (.mkd dirname) =
            replyDir cfg idMkdSuccess dirname msgMkdSuccess := by
          rw [hline]
          simp [mkdAnswer, hmem]
        rw [if_neg hmem] at hsize
        exact plain_directory hvalues (isName_isLine (hmkd hlogged dirname rfl))
          (by simp [messageKeys]) (by decide) hline hsize
    | rmd dirname =>
      obtain ⟨hline,hsize⟩ := answer_rmd cfg s dirname hlogged
      by_cases hmem : dirname ∈ s
      · have hline : answerLine cfg cli s (.rmd dirname) =
            replyDir cfg idRmdSuccess dirname msgRmdSuccess := by
          rw [hline]
          simp [rmdAnswer, hmem]
        rw [if_pos hmem] at hsize
        exact plain_directory hvalues (hs dirname hmem) (by simp [messageKeys]) (by decide)
          hline hsize
      · have hline : answerLine cfg cli s (.rmd dirname) = reply cfg idRmdFailure msgRmdFailed := by
          rw [hline]
          simp [rmdAnswer, hmem]
        rw [if_neg hmem] at hsize
        exact plain_reply hvalues (by simp [messageKeys]) (by decide) hline hsize
    | _ => exact absurd rfl hu

end Lines

theorem getList_flatten (s : Directories) :
    getList s = ((ordered s).map fun d => dirFormat++d).flatten := rfl

theorem entries_lines {s s' : Directories} (hs' : Lined s') (stray : Text → ℕ → UInt8) :
    ∀ l ∈ entries s s', IsLine l ∧ getCode stray l ≠ idListEnd ∧ l.length ≤ (getList s').length := by
  intro l hl
  rw [entries] at hl
  split at hl
  · cases hl
  · obtain ⟨d,hd,rfl⟩ := List.mem_map.mp hl
    refine ⟨?_,?_,?_⟩
    · exact isLine_append (by decide) (hs' d (mem_ordered.mp hd))
    · have hcode : getCode stray (dirFormat++d) = dirFormat.take 3 := by
        have hformat : dirFormat = dirFormat.take 3++dirFormat.drop 3 :=
          (List.take_append_drop 3 dirFormat).symm
        rw [hformat, List.append_assoc, getCode_append stray (by decide)]
        decide
      rw [hcode]
      decide
    · rw [getList_flatten]
      exact (List.sublist_flatten_of_mem hl).length_le

theorem entries_length (s s' : Directories) : (entries s s').length ≤ s'.card := by
  rw [entries]
  split
  · exact Nat.zero_le _
  · simp [ordered]

theorem entries_sent {s s' : Directories}
    (h : s ≠ ∅ → (0 < narrow s.card ∨ s' = ∅) ∧ listingSize s' < 2^31) :
    (if directoriesSize s > 0 then transmitted (getList s') else []) = (entries s s').flatten := by
  by_cases hs : s = ∅
  · subst hs
    have hzero : ¬ directoriesSize ∅ > 0 := by decide
    rw [if_neg hzero, entries, if_pos rfl]
    rfl
  · obtain ⟨hpos,hsize⟩ := h hs
    rw [entries, if_neg hs, ← getList_flatten]
    split
    · exact transmitted_small (by rw [getList_size]; exact hsize)
    · rename_i hle
      have hempty : s' = ∅ := hpos.resolve_left hle
      rw [hempty, getList_empty]

theorem entries_le (s s' : Directories) :
    (if directoriesSize s > 0 then transmitted (getList s') else []).length ≤
      (entries s s').flatten.length := by
  by_cases hs : s = ∅
  · subst hs
    have hzero : ¬ directoriesSize ∅ > 0 := by decide
    rw [if_neg hzero]
    exact Nat.zero_le _
  · rw [entries, if_neg hs, ← getList_flatten]
    split
    · exact transmitted_le _
    · exact Nat.zero_le _

theorem entries_whole {s s' : Directories}
    (h : (entries s s').flatten.length ≤
      (if directoriesSize s > 0 then transmitted (getList s') else []).length) :
    s ≠ ∅ → (0 < narrow s.card ∨ s' = ∅) ∧ listingSize s' < 2^31 := by
  intro hs
  rw [entries, if_neg hs, ← getList_flatten] at h
  split at h
  · rename_i hpos
    refine ⟨.inl hpos,?_⟩
    rw [← getList_size]
    exact transmitted_whole (Nat.le_antisymm (transmitted_le _) h)
  · have hcard := getList_length s'
    have hempty : s'.card = 0 := by
      rw [List.length_nil] at h
      omega
    rw [Finset.card_eq_zero] at hempty
    subst hempty
    refine ⟨.inr rfl,?_⟩
    rw [← getList_size, getList_empty]
    decide

section Lockstep
variable {cfg : Config} (hall : cfg.DefinesAll)
  (hvalues : ∀ key ∈ messageKeys, IsLine (cfg.value key)) {cli : Client} {query : Text}
  (hne : query.dropLast ≠ []) {cmd : Command} (hc : createCommand query = .ok cmd)
  {s s' : Directories}
include hall hvalues hne hc

theorem lockstep_line (hl : ¬ Lists cli cmd) (hs : Lined s)
    (hmkd : cli.logged = true → ∀ dirname, cmd = .mkd dirname → IsName dirname) :
    Lockstep cfg cli query cmd s s' ↔ answerSize cfg cli s cmd < 2^31 := by
  have hplain := answer_plain_line hvalues hall hl hs hmkd
  have hlines : answerLines cfg cli cmd s s' = [answerLine cfg cli s cmd] := if_neg hl
  rw [Lockstep, hlines]
  constructor
  · intro h
    obtain ⟨cli1,w,t,hserver,hclient⟩ := h _ _ byteByByte_reliable byteByByte_reliable
    obtain ⟨cli2,k,t',hserver'⟩ := server_line _ byteByByte_reliable s' hc hall s hl hs hmkd
    rw [hserver'] at hserver
    cases hserver
    obtain ⟨N,hN⟩ := hclient (fun _ _ => 0) [] []
    obtain ⟨last,out,k',hturn⟩ := hN N le_rfl
    have hbytes := turn_accounted _ _ hturn
    simp only [Accounted, List.flatten_cons, List.flatten_nil, List.append_nil,
      List.nil_append] at hbytes
    rw [← hplain.size]
    exact transmitted_whole (by rw [← hbytes])
  · intro hsize d d' hd hd'
    obtain ⟨cli1,k,t,hserver⟩ := server_line d hd s' hc hall s hl hs hmkd
    refine ⟨cli1,_,t,hserver,?_⟩
    intro stray rest response
    refine ⟨(answerLine cfg cli s cmd).length+1,fun n hn => ?_⟩
    rw [← hplain.size] at hsize
    dsimp only
    rw [transmitted_small hsize]
    obtain ⟨out,k',hturn⟩ := run_clientTurn_line stray d' hd' hne hplain.line (hplain.code stray)
      (n := n) (by omega) response rest [] [] [] 0
    exact ⟨_,out,k',hturn⟩

theorem lockstep_list (hl : Lists cli cmd) (hs' : Lined s') :
    Lockstep cfg cli query cmd s s' ↔
      replySize cfg msgListBegin < 2^31 ∧ replySize cfg msgListEnd < 2^31 ∧
      (s ≠ ∅ → (0 < narrow s.card ∨ s' = ∅) ∧ listingSize s' < 2^31) := by
  have hlines : answerLines cfg cli cmd s s' = reply cfg idListBegin msgListBegin::
      entries s s'++[reply cfg idListEnd msgListEnd] := if_pos hl
  rw [Lockstep, hlines, ← reply_size cfg (show idListBegin.length = 3 by decide),
    ← reply_size cfg (show idListEnd.length = 3 by decide)]
  constructor
  · intro h
    obtain ⟨cli1,w,t,hserver,hclient⟩ := h _ _ byteByByte_reliable byteByByte_reliable
    obtain ⟨k,t',hserver'⟩ := server_list _ byteByByte_reliable s' hc hall s hl
    rw [hserver'] at hserver
    cases hserver
    obtain ⟨N,hN⟩ := hclient (fun _ _ => 0) [] []
    obtain ⟨last,out,k',hturn⟩ := hN N le_rfl
    have hbytes := congrArg List.length (turn_accounted _ _ hturn)
    simp only [List.flatten_cons, List.flatten_nil, List.append_nil, List.nil_append,
      List.length_append, List.flatten_append] at hbytes
    have hbegin := transmitted_le (reply cfg idListBegin msgListBegin)
    have hend := transmitted_le (reply cfg idListEnd msgListEnd)
    have hmid := entries_le s s'
    refine ⟨?_,?_,?_⟩
    · exact transmitted_whole (by omega)
    · exact transmitted_whole (by omega)
    · exact entries_whole (by omega)
  · intro h d d' hd hd'
    obtain ⟨hbegin,hend,hmid⟩ := h
    obtain ⟨k,t,hserver⟩ := server_list d hd s' hc hall s hl
    refine ⟨cli,_,t,hserver,?_⟩
    intro stray rest response
    refine ⟨(reply cfg idListBegin msgListBegin).length+(reply cfg idListEnd msgListEnd).length+
      (getList s').length+s'.card+2,fun n hn => ?_⟩
    have hcode : ∀ id : Text, id.length = 3 → ∀ message, getCode stray (reply cfg id message) = id := by
      intro id hid message
      rw [reply, List.append_assoc, getCode_append stray hid]
    have hentries : ∀ l ∈ entries s s', IsLine l ∧ getCode stray l ≠ idListEnd ∧ l.length < n := by
      intro l hmem
      obtain ⟨hline,hne,hle⟩ := entries_lines hs' stray l hmem
      exact ⟨hline,hne,by omega⟩
    have hcount := entries_length s s'
    have hline : ∀ message id, message ∈ messageKeys → newline ∉ id →
        IsLine (reply cfg id message) := fun message id hkey hid => reply_line hvalues hkey hid
    obtain ⟨out,k',hturn⟩ := run_clientTurn_list stray d' hd' hne
      (hline msgListBegin idListBegin (by simp [messageKeys]) (by decide))
      (hcode idListBegin (by decide) _)
      (hline msgListEnd idListEnd (by simp [messageKeys]) (by decide))
      (hcode idListEnd (by decide) _) (n := n) (by omega) (by omega) (by omega) hentries response rest
      [] [] [] 0
    refine ⟨reply cfg idListBegin msgListBegin,out,k',?_⟩
    dsimp only
    rw [transmitted_small hbegin, transmitted_small hend, entries_sent hmid]
    simpa only [List.append_assoc, List.nil_append] using hturn

end Lockstep

/-- The server's bytes for a query are the ones its client reads, line by line and
to the last one, exactly when they all pass through `Socket::send`. -/
theorem lockstep_iff_whole {cfg : Config} (hall : cfg.DefinesAll)
    (hvalues : ∀ key ∈ messageKeys, IsLine (cfg.value key)) (cli : Client) {query : Text}
    (hquery : IsLine query) (hlen : 1 < query.length) (hnamed : query ≠ text "MKD\n")
    {cmd : Command} (hc : createCommand query = .ok cmd) {s s' : Directories} (hs : Lined s)
    (hs' : Lined s') : Lockstep cfg cli query cmd s s' ↔ Whole cfg cli cmd s s' := by
  have hne : query.dropLast ≠ [] := by
    intro hnil
    have hlength := congrArg List.length hnil
    rw [List.length_dropLast, List.length_nil] at hlength
    omega
  by_cases hl : Lists cli cmd
  · rw [Whole, if_pos hl]
    exact lockstep_list hall hvalues hne hc hl hs'
  · rw [Whole, if_neg hl]
    apply lockstep_line hall hvalues hne hc hl hs
    intro _ dirname hcmd
    subst hcmd
    rcases create_mkd hquery hc with ⟨hq,_⟩ | ⟨hline,hle⟩
    · exact absurd hq hnamed
    · exact isName_line hline hle

theorem namesConfig_lines : ∀ key ∈ messageKeys, IsLine (namesConfig.value key) := by
  have hvalue : ∀ key ∈ messageKeys, newline ∉ key ∧ namesConfig.value key = key++[newline] := by
    decide
  intro key hkey
  exact ⟨key,hvalue key hkey⟩

theorem lockstep_iff_whole_list :
    Lockstep namesConfig member (text "LIST\n") .list {text "foo\n"} {text "bar\n"} := by
  have hname : ∀ body : Text, newline ∉ body → Lined {body++[newline]} := by
    intro body hbody d hd
    exact ⟨body,hbody,Finset.mem_singleton.mp hd⟩
  have hlist : IsLine (text "LIST\n") := ⟨text "LIST",by decide,by decide⟩
  have hwhole : Whole namesConfig member .list {text "foo\n"} {text "bar\n"} := by
    rw [Whole, if_pos ⟨rfl,rfl⟩, ← getList_size, getList_singleton]
    exact ⟨by decide,by decide,fun _ => ⟨.inl (by decide),by decide⟩⟩
  exact (lockstep_iff_whole namesConfig_defines namesConfig_lines member hlist (by decide)
    (by decide) (by decide) (hname (text "foo") (by decide))
    (hname (text "bar") (by decide))).mpr hwhole

/-- A directory with so long a name that its entry does not fit. -/
theorem list_out_of_step :
    ∃ d, IsName d ∧ ¬ Lockstep namesConfig member (text "LIST\n") .list {d} {d} := by
  obtain ⟨d,hname,hlen⟩ := long_name
  refine ⟨d,hname,?_⟩
  have hlined : Lined {d} := by
    intro e he
    rw [Finset.mem_singleton.mp he]
    exact isName_isLine hname
  rw [lockstep_list namesConfig_defines namesConfig_lines (by decide) (by decide) ⟨rfl,rfl⟩ hlined]
  rintro ⟨_,_,h⟩
  have hsize := (h (Finset.singleton_ne_empty _)).2
  rw [listingSize, Finset.sum_singleton] at hsize
  omega

end Workshop.FtpLockstep
