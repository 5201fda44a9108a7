import Workshop.FtpContract
import Workshop.FtpNetwork

/-!
# When the reads of a session end

`Socket::receive` reports the end of the stream by a return value that
`receive_string` does not look at, so the loop is left only through a line
end. A session ends when a complete line makes it stop.
-/

set_option autoImplicit false

namespace Workshop.FtpStream
open Workshop.CMemory Workshop.InteractiveProgram Workshop.ByteChannel
open Workshop.FtpConfig Workshop.FtpCommand Workshop.FtpServer Workshop.FtpContract
open Workshop.FtpNetwork

variable {σ L : Type}

abbrev noCalls : Interface := ⟨Empty,fun op => nomatch op⟩

def noAnswers : Handler noCalls Halt Unit := fun op => nomatch op

def receiveRun (d : Delivery) (stream : Text) (n : ℕ) : Except Halt Text :=
  (run (wired d noAnswers) (protocolReceiveString n) (⟨stream,[],0⟩,())).1

/-- The read returns or throws, and what it returns was received. -/
def ReadEnds (d : Delivery) (stream : Text) : Prop :=
  (∃ n, receiveRun d stream n ≠ .error .running) ∧
    ∀ n str, receiveRun d stream n = .ok str → str <:+: stream

theorem read_ends_iff (d : Delivery) (stream : Text) : ReadEnds d stream ↔ newline ∈ stream := by
  constructor
  · intro h
    by_contra hnl
    obtain ⟨n,hn⟩ := h.1
    exact hn (run_receive_unended d noAnswers stream [] hnl n 0 ())
  · intro h
    obtain ⟨body,rest,hbody,rfl⟩ := first_newline h
    have hfirst := fun n => run_receive_first d noAnswers body rest [] hbody n 0 ()
    constructor
    · refine ⟨body.length+2,?_⟩
      rw [receiveRun, hfirst, if_pos (by omega)]
      simp
    · intro n str hstr
      rw [receiveRun, hfirst] at hstr
      split at hstr
      · cases hstr
        exact ⟨[],rest,by simp⟩
      · cases hstr

def sessionRun (cfg : Config) (d : Delivery) (A : Shared σ) (s : σ) (stream : Text) (n : ℕ) :
    Except Halt Unit :=
  (run (wired d (answering A)) ((respondClient cfg n).interp (overSocket n)) (⟨stream,[],0⟩,s)).1

/-- `respond_client` returns, also when an exception is caught. -/
def SessionEnds (cfg : Config) (d : Delivery) (A : Shared σ) (s : σ) (stream : Text) : Prop :=
  ∃ n, sessionRun cfg d A s stream n = .ok ()

def EndsSession (query : Text) : Prop := query.length ≤ 1 ∨ createCommand query = .ok .quit

def sessionHandler (d : Delivery) (A : Shared σ) (n : ℕ) : Handler server Halt (Wire × σ) :=
  fun op ws => run (wired d (answering A)) (overSocket n op) ws

/-- A connection that takes every text, and the texts in their order. -/
def recording (A : Shared σ) : Handler server Halt (σ × List Text)
  | .sendString cmd, (s,texts) => (.ok true,s,texts++[cmd])
  | op, (s,texts) => (.ok (A op s).1,(A op s).2,texts)

def recorded (A : Shared σ) {α : Type} (p : Session α) (s : σ) : Except Halt α × σ × List Text :=
  run (recording A) p (s,[])

def sentAll (d : Delivery) : List Text → ℕ → Option ℕ
  | [], k => some k
  | t::texts, k => (sentBy d (transmitted t).length k).bind (sentAll d texts)

/-- A part of a session whose texts are sent from call `k` on ends the session: a
send fails, or `next` ends it behind the part. -/
def EndsBehind (d : Delivery) (A : Shared σ) {α : Type} (p : Session α) (s : σ) (k : ℕ)
    (next : α → σ → ℕ → Prop) : Prop :=
  match sentAll d (recorded A p s).2.2 k with
  | none => True
  | some k =>
    match (recorded A p s).1 with
    | .ok a => next a (recorded A p s).2.1 k
    | .error e => e = .thrown

/-- The lines end a session: an empty one, the answer to `QUIT` or a send that fails
comes before the lines run out and before an answer is undefined. -/
def Closes (cfg : Config) (d : Delivery) (A : Shared σ) : List Text → Client → σ → ℕ → Prop
  | [], _, _, _ => False
  | query::lines, cli, s, k =>
    query.length ≤ 1 ∨ EndsBehind d A (answerQuery cfg query cli) s (k+query.length)
      fun cli s k => cli.quit = true ∨ Closes cfg d A lines cli s k

def StreamCloses (cfg : Config) (d : Delivery) (A : Shared σ) (s : σ) (stream : Text) : Prop :=
  EndsBehind d A (sendHello cfg) s 0 fun _ s k =>
    Closes cfg d A (splitLines stream).1 Client.new s k

def Prompt {α : Type} : Session α → Prop
  | .ret _ => True
  | .fail _ => True
  | .call .receiveString _ => False
  | .call (.sendString _) next => next false = .fail .thrown ∧ Prompt (next true)
  | .call (.addDirectory _) next => ∀ r, Prompt (next r)
  | .call (.removeDirectory _) next => ∀ r, Prompt (next r)
  | .call .directoriesSize next => ∀ r, Prompt (next r)
  | .call .getList next => ∀ r, Prompt (next r)
  | .call (.note _) next => ∀ r, Prompt (next r)

theorem prompt_bind {α β : Type} {p : Session α} {f : α → Session β} (hp : Prompt p)
    (hf : ∀ a, Prompt (f a)) : Prompt (p >>= f) := by
  induction p with
  | ret a => exact hf a
  | fail e => trivial
  | call op next ih =>
    cases op with
    | receiveString => exact hp.elim
    | sendString cmd =>
      refine ⟨?_,ih true hp.2⟩
      change next false >>= f = .fail .thrown
      rw [hp.1]
      rfl
    | addDirectory dir => exact fun r => ih r (hp r)
    | removeDirectory dir => exact fun r => ih r (hp r)
    | directoriesSize => exact fun r => ih r (hp r)
    | getList => exact fun r => ih r (hp r)
    | note e => exact fun r => ih r (hp r)

theorem prompt_lift {α : Type} (x : Except Halt α) : Prompt (Program.lift x : Session α) := by
  cases x <;> trivial

theorem prompt_sendString (t : Text) : Prompt (sendString t) := ⟨rfl,trivial⟩

section Prompt
variable (cfg : Config)

theorem prompt_sendMessage (id message : Text) (cli : Client) :
    Prompt (sendMessage cfg id message cli) :=
  prompt_bind (prompt_lift _) fun _ => prompt_bind (prompt_sendString _) fun _ => trivial

theorem prompt_sendDirectory (id dirname message : Text) (cli : Client) :
    Prompt (sendDirectory cfg id dirname message cli) :=
  prompt_bind (prompt_lift _) fun _ => prompt_bind (prompt_sendString _) fun _ => trivial

theorem prompt_whenLogged (cli : Client) {p : Session Client} (hp : Prompt p) :
    Prompt (whenLogged cfg cli p) := by
  rw [whenLogged]
  split
  · exact hp
  · exact prompt_sendMessage cfg _ _ cli

theorem prompt_sendList : Prompt sendList := by
  intro size
  dsimp only
  split
  · exact fun list => prompt_sendString list
  · trivial

theorem prompt_response (cli : Client) (cmd : Command) : Prompt (sendResponse cfg cli cmd) := by
  cases cmd with
  | user possibleUser => exact prompt_sendMessage cfg _ _ _
  | pass possiblePass =>
    refine prompt_bind (prompt_lift _) fun valid => ?_
    split
    · exact prompt_sendMessage cfg _ _ _
    · exact prompt_sendMessage cfg _ _ _
  | syst => exact prompt_whenLogged cfg cli (prompt_sendMessage cfg _ _ cli)
  | help => exact prompt_whenLogged cfg cli (prompt_sendMessage cfg _ _ cli)
  | pwd => exact prompt_whenLogged cfg cli (prompt_sendMessage cfg _ _ cli)
  | list =>
    refine prompt_whenLogged cfg cli (prompt_bind (prompt_sendMessage cfg _ _ cli) fun _ => ?_)
    exact prompt_bind prompt_sendList fun _ => prompt_sendMessage cfg _ _ cli
  | mkd dirname =>
    refine prompt_whenLogged cfg cli fun added => ?_
    dsimp only
    split
    · exact prompt_sendDirectory cfg _ _ _ cli
    · exact prompt_sendMessage cfg _ _ cli
  | rmd dirname =>
    refine prompt_whenLogged cfg cli fun removed => ?_
    dsimp only
    split
    · exact prompt_sendDirectory cfg _ _ _ cli
    · exact prompt_sendMessage cfg _ _ cli
  | quit => exact prompt_sendMessage cfg _ _ _
  | invalid => exact prompt_sendMessage cfg _ _ cli

theorem prompt_answer (query : Text) (cli : Client) : Prompt (answerQuery cfg query cli) := by
  intro _
  refine prompt_bind (prompt_bind (prompt_lift _) (prompt_response cfg cli)) fun cli' => ?_
  exact fun _ => trivial

theorem prompt_sendHello : Prompt (sendHello cfg) :=
  prompt_bind (prompt_lift _) fun cmd => prompt_sendString cmd

end Prompt

theorem run_recording (A : Shared σ) {α : Type} (p : Session α) (s : σ) (texts : List Text) :
    run (recording A) p (s,texts) =
      ((recorded A p s).1,(recorded A p s).2.1,texts++(recorded A p s).2.2) := by
  rw [recorded]
  induction p generalizing s texts with
  | ret a => simp
  | fail e => simp
  | call op next ih =>
    cases op with
    | sendString cmd =>
      rw [run_call, run_call, recording, andThen_ok, ih true s (texts++[cmd]), recording,
        andThen_ok, ih true s ([]++[cmd])]
      simp
    | _ => exact ih _ _ texts

theorem recorded_sendString (A : Shared σ) {α : Type} (cmd : Text) (next : Bool → Session α)
    (s : σ) :
    recorded A (.call (.sendString cmd) next) s =
      ((recorded A (next true) s).1,(recorded A (next true) s).2.1,
        cmd::(recorded A (next true) s).2.2) := by
  rw [recorded, run_call, recording, andThen_ok, run_recording]
  rfl

section Parts
variable (d : Delivery) (A : Shared σ) (n : ℕ) {α : Type}

theorem run_prompt {p : Session α} (hp : Prompt p) (unread out : Text) (k : ℕ) (s : σ) :
    (∃ out' k', sentAll d (recorded A p s).2.2 k = some k' ∧
      run (sessionHandler d A n) p (⟨unread,out,k⟩,s) =
        ((recorded A p s).1,⟨unread,out',k'⟩,(recorded A p s).2.1)) ∨
      (sentAll d (recorded A p s).2.2 k = none ∧
        ∃ ws, run (sessionHandler d A n) p (⟨unread,out,k⟩,s) = (.error .thrown,ws)) := by
  induction p generalizing out k s with
  | ret a => exact .inl ⟨out,k,rfl,rfl⟩
  | fail e => exact .inl ⟨out,k,rfl,rfl⟩
  | call op next ih =>
    cases op with
    | receiveString => exact hp.elim
    | sendString cmd =>
      rw [recorded_sendString, run_call, sessionHandler, sentAll]
      rcases run_sendString_cases d (answering A) (answering_ok A) n cmd ⟨unread,out,k⟩ s with
        ⟨k',hk,hrun⟩ | ⟨hnone,out',k',hrun⟩
      · rw [hrun, andThen_ok, hk]
        exact ih true hp.2 (out++transmitted cmd) k' s
      · right
        rw [hrun, andThen_ok, hp.1, hnone]
        exact ⟨rfl,_,rfl⟩
    | addDirectory dir => exact ih _ (hp _) out k _
    | removeDirectory dir => exact ih _ (hp _) out k _
    | directoriesSize => exact ih _ (hp _) out k _
    | getList => exact ih _ (hp _) out k _
    | note e => exact ih _ (hp _) out k _

def Left (x : Except Halt α × Wire × σ) : Prop := (∃ a, x.1 = .ok a) ∨ x.1 = .error .thrown

theorem not_left {x : Except Halt α × Wire × σ} (h : x.1 = .error .running) : ¬ Left x := by
  rintro (⟨a,ha⟩ | hthrown)
  · rw [h] at ha
    cases ha
  · rw [h] at hthrown
    cases hthrown

section Behind
variable {β : Type} {p : Session α} (hp : Prompt p) (unread out : Text) (k : ℕ) (s : σ)
  (f : α → Wire × σ → Except Halt β × Wire × σ) (next : α → σ → ℕ → Prop)
include hp

theorem left_behind
    (h : Left (andThen (run (sessionHandler d A n) p (⟨unread,out,k⟩,s)) f))
    (hnext : ∀ a s k out, Left (f a (⟨unread,out,k⟩,s)) → next a s k) :
    EndsBehind d A p s k next := by
  rw [EndsBehind]
  rcases run_prompt d A n hp unread out k s with ⟨out',k',hk,hrun⟩ | ⟨hnone,ws,hrun⟩
  · rw [hrun] at h
    simp only [hk]
    cases hx : (recorded A p s).1 with
    | ok a =>
      rw [hx, andThen_ok] at h
      exact hnext a _ k' out' h
    | error e =>
      rw [hx, andThen_error] at h
      rcases h with ⟨a,ha⟩ | he
      · cases ha
      · exact Except.error.inj he
  · simp only [hnone]

theorem behind_left (h : EndsBehind d A p s k next)
    (hnext : ∀ a s k out, next a s k → Left (f a (⟨unread,out,k⟩,s))) :
    Left (andThen (run (sessionHandler d A n) p (⟨unread,out,k⟩,s)) f) := by
  rw [EndsBehind] at h
  rcases run_prompt d A n hp unread out k s with ⟨out',k',hk,hrun⟩ | ⟨hnone,ws,hrun⟩
  · simp only [hk] at h
    rw [hrun]
    cases hx : (recorded A p s).1 with
    | ok a =>
      rw [hx] at h
      rw [andThen_ok]
      exact hnext a _ k' out' h
    | error e =>
      rw [hx] at h
      rw [andThen_error]
      exact .inr (congrArg _ h)
  · rw [hrun, andThen_error]
    exact .inr rfl

end Behind
end Parts

section Loop
variable (cfg : Config) (d : Delivery) (A : Shared σ) (n : ℕ)

theorem handler_line {query : Text} (hq : IsLine query) (hn : query.length < n)
    (rest out : Text) (k : ℕ) (s : σ) :
    sessionHandler d A n .receiveString (⟨query++rest,out,k⟩,s) =
      (.ok query,⟨rest,out,k+query.length⟩,s) := by
  obtain ⟨body,hbody,rfl⟩ := hq
  rw [List.length_append, List.length_singleton] at hn
  have hread := run_receive_line d (answering A) body rest out hbody n hn k s
  rw [List.append_assoc, List.length_append, List.length_singleton, ← Nat.add_assoc]
  exact hread

theorem turn_quit {cli : Client} (h : cli.quit = true) (m : ℕ) (ws : Wire × σ) :
    run (sessionHandler d A n) (Program.iterate .running (serveQuery cfg) (m+1) cli) ws =
      (.ok cli,ws) := by
  rw [Program.iterate, serveQuery, if_pos h]
  rfl

theorem turn_line {cli : Client} (h : cli.quit = false) {query : Text} (hq : IsLine query)
    (hn : query.length < n) (hlen : 1 < query.length) (m : ℕ) (rest out : Text) (k : ℕ) (s : σ) :
    run (sessionHandler d A n) (Program.iterate .running (serveQuery cfg) (m+1) cli)
        (⟨query++rest,out,k⟩,s) =
      andThen (run (sessionHandler d A n) (answerQuery cfg query cli)
          (⟨rest,out,k+query.length⟩,s))
        fun cli ws => run (sessionHandler d A n)
          (Program.iterate .running (serveQuery cfg) m cli) ws := by
  rw [Program.iterate, serveQuery, if_neg (by simp [h]), Program.call_bind, run_call,
    handler_line d A n hq hn rest out k s, andThen_ok, if_pos hlen, run_bind, run_bind]
  rcases run (sessionHandler d A n) (answerQuery cfg query cli)
    (⟨rest,out,k+query.length⟩,s) with ⟨e | cli',ws⟩
  · rfl
  · rfl

theorem turn_empty {cli : Client} (h : cli.quit = false) {query : Text} (hq : IsLine query)
    (hn : query.length < n) (hlen : query.length ≤ 1) (m : ℕ) (rest out : Text) (k : ℕ) (s : σ) :
    run (sessionHandler d A n) (Program.iterate .running (serveQuery cfg) (m+1) cli)
        (⟨query++rest,out,k⟩,s) =
      run (sessionHandler d A n)
        (Program.iterate .running (serveQuery cfg) m { cli with quit := true })
        (⟨rest,out,k+query.length⟩,s) := by
  rw [Program.iterate, serveQuery, if_neg (by simp [h]), Program.call_bind, run_call,
    handler_line d A n hq hn rest out k s, andThen_ok, if_neg (by omega)]
  rfl

theorem turn_stuck {cli : Client} (h : cli.quit = false) (m : ℕ) (ws : Wire × σ)
    (hread : (sessionHandler d A n .receiveString ws).1 = .error .running) :
    (run (sessionHandler d A n) (Program.iterate .running (serveQuery cfg) (m+1) cli) ws).1 =
      .error .running := by
  rw [Program.iterate, serveQuery, if_neg (by simp [h]), Program.call_bind, run_call]
  rcases hr : sessionHandler d A n .receiveString ws with ⟨e | str,ws'⟩
  · rw [hr] at hread
    cases hread
    rfl
  · rw [hr] at hread
    cases hread

theorem read_cut {query : Text} (hq : IsLine query) (hn : n ≤ query.length) (rest out : Text)
    (k : ℕ) (s : σ) :
    (sessionHandler d A n .receiveString (⟨query++rest,out,k⟩,s)).1 = .error .running := by
  obtain ⟨body,hbody,rfl⟩ := hq
  rw [List.length_append, List.length_singleton] at hn
  have hread := run_receive_first d (answering A) body rest out hbody n k s
  rw [if_neg (by omega)] at hread
  rw [List.append_assoc]
  exact hread

theorem loop_closes (lines : List Text) (tail : Text) (hlines : ∀ q ∈ lines, IsLine q)
    (htail : newline ∉ tail) (m : ℕ) (cli : Client) (hquit : cli.quit = false) (out : Text) (k : ℕ)
    (s : σ)
    (h : Left (run (sessionHandler d A n) (Program.iterate .running (serveQuery cfg) m cli)
      (⟨lines.flatten++tail,out,k⟩,s))) : Closes cfg d A lines cli s k := by
  induction lines generalizing m cli out k s with
  | nil =>
    refine absurd h (not_left ?_)
    cases m with
    | zero => rfl
    | succ m =>
      exact turn_stuck cfg d A n hquit m _
        (run_receive_unended d (answering A) tail out htail n k s)
  | cons query lines ih =>
    obtain ⟨hq,hlines⟩ := List.forall_mem_cons.mp hlines
    rw [List.flatten_cons, List.append_assoc] at h
    cases m with
    | zero => exact absurd h (not_left rfl)
    | succ m =>
      rcases Nat.lt_or_ge query.length n with hn | hn
      · rcases Nat.lt_or_ge 1 query.length with hlen | hlen
        · rw [turn_line cfg d A n hquit hq hn hlen] at h
          refine .inr (left_behind d A n (prompt_answer cfg query cli) _ _ _ _ _ _ h ?_)
          intro cli' s' k' out' hleft
          cases hquit' : cli'.quit with
          | true => exact .inl rfl
          | false => exact .inr (ih hlines m cli' hquit' out' k' s' hleft)
        · exact .inl hlen
      · exact absurd h (not_left (turn_stuck cfg d A n hquit m _ (read_cut d A n hq hn _ out k s)))

theorem closes_loop (lines : List Text) (tail : Text) (hlines : ∀ q ∈ lines, IsLine q)
    (hn : ∀ q ∈ lines, q.length < n) (m : ℕ) (hm : lines.length < m) (cli : Client)
    (hquit : cli.quit = false) (out : Text) (k : ℕ) (s : σ)
    (h : Closes cfg d A lines cli s k) :
    Left (run (sessionHandler d A n) (Program.iterate .running (serveQuery cfg) m cli)
      (⟨lines.flatten++tail,out,k⟩,s)) := by
  induction lines generalizing m cli out k s with
  | nil => exact h.elim
  | cons query lines ih =>
    obtain ⟨m,rfl⟩ : ∃ m', m = m'+1+1 := ⟨m-2,by rw [List.length_cons] at hm; omega⟩
    rw [List.length_cons] at hm
    obtain ⟨hq,hlines⟩ := List.forall_mem_cons.mp hlines
    obtain ⟨hqn,hn⟩ := List.forall_mem_cons.mp hn
    rw [List.flatten_cons, List.append_assoc]
    rcases Nat.lt_or_ge 1 query.length with hlen | hlen
    · rw [turn_line cfg d A n hquit hq hqn hlen]
      refine behind_left d A n (prompt_answer cfg query cli) _ _ _ _ _ _
        (h.resolve_left (by omega)) ?_
      intro cli' s' k' out' hnext
      cases hquit' : cli'.quit with
      | true =>
        rw [turn_quit cfg d A n hquit']
        exact .inl ⟨_,rfl⟩
      | false =>
        rw [hquit'] at hnext
        exact ih hlines hn (m+1) (by omega) cli' hquit' out' k' s'
          (hnext.resolve_left Bool.false_ne_true)
    · rw [turn_empty cfg d A n hquit hq hqn hlen, turn_quit cfg d A n rfl]
      exact .inl ⟨_,rfl⟩

end Loop

section Session
variable (cfg : Config) (d : Delivery) (A : Shared σ) (n : ℕ)

theorem handler_error (op : ServerOp) (ws : Wire × σ) (e : Halt)
    (h : (sessionHandler d A n op ws).1 = .error e) : e = .running := by
  obtain ⟨w,s⟩ := ws
  cases op with
  | receiveString =>
    by_cases hnl : newline ∈ w.incoming
    · obtain ⟨body,rest,hbody,hin⟩ := first_newline hnl
      have hread := run_receive_first d (answering A) body rest w.outgoing hbody n w.calls s
      rw [sessionHandler, overSocket, show w = ⟨body++newline::rest,w.outgoing,w.calls⟩ by
        rw [← hin], hread] at h
      split at h
      · cases h
      · exact (Except.error.inj h).symm
    · have hread := run_receive_unended d (answering A) w.incoming w.outgoing hnl n w.calls s
      rw [sessionHandler, overSocket, hread] at h
      exact (Except.error.inj h).symm
  | sendString cmd =>
    rw [sessionHandler] at h
    rcases run_sendString_cases d (answering A) (answering_ok A) n cmd w s with
      ⟨k,-,hrun⟩ | ⟨-,out,k,hrun⟩
    · rw [hrun] at h
      cases h
    · rw [hrun] at h
      cases h
  | _ => cases h

theorem session_left (ws : Wire × σ) :
    (run (sessionHandler d A n) (respondClient cfg n) ws).1 = .ok () ↔
      Left (andThen (run (sessionHandler d A n) (sendHello cfg) ws) fun _ ws =>
        run (sessionHandler d A n)
          (Program.iterate .running (serveQuery cfg) n Client.new) ws) := by
  have hlet : ∀ op ws e, (sessionHandler d A n op ws).1 = .error e →
      catchException e = .fail e := by
    intro op ws e h
    rw [handler_error d A n op ws e h]
    rfl
  rw [respondClient, run_attempt _ _ _ _ hlet, run_bind]
  rcases run (sessionHandler d A n) (sendHello cfg) ws with ⟨e | u,ws1⟩
  · cases e <;> simp [catchException, Left]
  · rw [andThen_ok, andThen_ok, run_bind]
    rcases run (sessionHandler d A n)
      (Program.iterate .running (serveQuery cfg) n Client.new) ws1 with ⟨e | cli,ws2⟩
    · cases e <;> simp [catchException, Left]
    · simp [Left]

theorem sessionRun_eq (s : σ) (stream : Text) :
    sessionRun cfg d A s stream n =
      (run (sessionHandler d A n) (respondClient cfg n) (⟨stream,[],0⟩,s)).1 := by
  rw [sessionRun, run_interp]
  rfl

end Session

theorem session_ends_iff (cfg : Config) (d : Delivery) (A : Shared σ) (s : σ) (stream : Text) :
    SessionEnds cfg d A s stream ↔ StreamCloses cfg d A s stream := by
  have hjoin := splitLines_join stream
  constructor
  · rintro ⟨n,hn⟩
    rw [sessionRun_eq, session_left] at hn
    refine left_behind d A n (prompt_sendHello cfg) _ _ _ _ _ _ hn ?_
    intro _ s' k out hleft
    rw [← hjoin] at hleft
    exact loop_closes cfg d A n _ _ (splitLines_lines stream) (splitLines_tail stream) n Client.new
      rfl out k s' hleft
  · intro h
    have hcount := splitLines_count stream
    refine ⟨stream.length+1,?_⟩
    rw [sessionRun_eq, session_left]
    refine behind_left d A (stream.length+1) (prompt_sendHello cfg) _ _ _ _ _ _ h ?_
    intro _ s' k out hcloses
    have hleft := closes_loop cfg d A (stream.length+1) (splitLines stream).1 (splitLines stream).2
      (splitLines_lines stream) (fun q hq => Nat.lt_succ_of_le (splitLines_length hq))
      (stream.length+1) (by omega) Client.new rfl out k s' hcloses
    rwa [hjoin] at hleft

def Harmless (query : Text) : Prop :=
  IsLine query ∧ 1 < query.length ∧ query ≠ text "MKD\n" ∧ query ≠ text "RMD\n"

def offline : Contract server Unit where
  may _ op := match op with
    | .receiveString => False
    | _ => True
  rely _ op r := match op, r with
    | .sendString _, returned => returned = true
    | _, _ => True
  view l _ _ := l

theorem serves_offline (A : Shared σ) : Serves offline (recording A) fun _ _ => True := by
  constructor
  rintro l ⟨s,texts⟩ op hsim hmay
  cases op with
  | receiveString => cases hmay
  | sendString cmd => exact ⟨_,_,rfl,rfl,trivial⟩
  | _ => exact ⟨_,_,rfl,trivial,trivial⟩

theorem offline_quiet (cmd : Command) : Quiet offline () cmd := by
  intro op hop
  cases op with
  | receiveString => cases hop
  | note e => cases hop
  | _ => exact ⟨trivial,fun _ _ => rfl⟩

theorem offline_reason {cfg : Config} (hcfg : cfg.DefinesAll) {cmd : Command} {e : Halt}
    (hmkd : cmd ≠ .mkd []) (hrmd : cmd ≠ .rmd []) : ¬ Reason offline () cfg cmd e := by
  intro h
  cases h with
  | refused t hrely => exact Bool.noConfusion (show false = true from hrely)
  | missing hmissing => exact hmissing hcfg
  | nameless hname =>
    rcases hname with h | h
    · exact hmkd h
    · exact hrmd h.1

theorem recorded_answer {cfg : Config} (hcfg : cfg.DefinesAll) (A : Shared σ) {query : Text}
    (hq : Harmless query) (cli : Client) (s : σ) :
    ∃ cli', (recorded A (answerQuery cfg query cli) s).1 = .ok cli' ∧
      cli'.quit = (cli.quit || createCommand query = .ok .quit) := by
  obtain ⟨hline,hlen,hmkd,hrmd⟩ := hq
  have hne : query ≠ [] := by
    rintro rfl
    simp at hlen
  obtain ⟨cmd,hcmd⟩ := create_total hne
  have hnamed : cmd ≠ .mkd [] ∧ cmd ≠ .rmd [] := by
    constructor
    · rintro rfl
      rcases create_mkd hline hcmd with h | h
      · exact hmkd h.1
      · simp at h
    · rintro rfl
      rcases create_rmd hline hcmd with h | h
      · exact hrmd h.1
      · simp at h
  have hkeeps : Keeps offline _ _ (answerQuery cfg query cli) () :=
    keeps_answer cfg hcmd trivial (offline_quiet cmd) fun _ _ => trivial
  rcases keeps_run (serves_offline A) hkeeps (s := (s,[])) trivial with
    ⟨cli',_,_,hrun,-,r,hr,rfl,-⟩ | ⟨e,_,_,-,-,-,hreason⟩
  · refine ⟨r.after,by rw [recorded, hrun],?_⟩
    rw [plainReply_quit hr, hcmd]
    simp
  · exact absurd hreason (offline_reason hcfg hnamed.1 hnamed.2)

theorem sentBy_reliable {d : Delivery} (hd : d.Reliable) (left k : ℕ) :
    ∃ k', sentBy d left k = some k' := by
  induction hm : left using Nat.strong_induction_on generalizing left k with
  | _ m ih =>
    subst hm
    rw [sentBy, hd k]
    split
    · exact ⟨k,rfl⟩
    · exact ih (left-(d.accepted k+1)) (by omega) _ _ rfl

theorem sentAll_reliable {d : Delivery} (hd : d.Reliable) (texts : List Text) (k : ℕ) :
    ∃ k', sentAll d texts k = some k' := by
  induction texts generalizing k with
  | nil => exact ⟨k,rfl⟩
  | cons t texts ih =>
    obtain ⟨k1,h1⟩ := sentBy_reliable hd (transmitted t).length k
    rw [sentAll, h1]
    exact ih k1

/-- Where the answers are sound and sent, a session is closed by an empty line or
by `QUIT`. -/
theorem closes_iff_line {cfg : Config} (hcfg : cfg.DefinesAll) {d : Delivery} (hd : d.Reliable)
    (A : Shared σ) (lines : List Text) (hlines : ∀ q ∈ lines, q.length ≤ 1 ∨ Harmless q)
    (cli : Client) (hquit : cli.quit = false) (s : σ) (k : ℕ) :
    Closes cfg d A lines cli s k ↔ ∃ q ∈ lines, EndsSession q := by
  induction lines generalizing cli s k with
  | nil => simp [Closes]
  | cons query lines ih =>
    obtain ⟨hq,hlines⟩ := List.forall_mem_cons.mp hlines
    rw [List.exists_mem_cons_iff, Closes]
    rcases hq with hlen | hq
    · simp [hlen, EndsSession]
    · obtain ⟨cli',hcli,hquit'⟩ := recorded_answer hcfg A hq cli s
      obtain ⟨k',hk⟩ := sentAll_reliable hd (recorded A (answerQuery cfg query cli) s).2.2
        (k+query.length)
      have hlen : ¬ query.length ≤ 1 := by
        have := hq.2.1
        omega
      rw [EndsBehind]
      simp only [hk, hcli, EndsSession, hlen, false_or]
      by_cases hc : createCommand query = .ok .quit
      · simp [hquit', hc]
      · have hopen : cli'.quit = false := by simp [hquit', hquit, hc]
        rw [ih hlines cli' hopen]
        simp [hopen, hc, EndsSession]

theorem streamCloses_iff_line {cfg : Config} (hcfg : cfg.DefinesAll) {d : Delivery}
    (hd : d.Reliable) (A : Shared σ) (s : σ) (stream : Text)
    (hlines : ∀ q ∈ (splitLines stream).1, q.length ≤ 1 ∨ Harmless q) :
    StreamCloses cfg d A s stream ↔ ∃ q ∈ (splitLines stream).1, EndsSession q := by
  have hgreeting : recorded A (sendHello cfg) s =
      (.ok (),s,[reply cfg idNewClient msgNewClient]) := by
    rw [sendHello, formatCmd_eq (hcfg msgNewClient (by simp [messageKeys]))]
    exact recorded_sendString A _ _ s
  obtain ⟨k,hk⟩ := sentAll_reliable hd [reply cfg idNewClient msgNewClient] 0
  rw [StreamCloses, EndsBehind, hgreeting]
  simp only [hk]
  exact closes_iff_line hcfg hd A _ hlines Client.new rfl s k

/-- A read ends exactly when a line end is still to come, and then returns bytes of
the stream. A session ends exactly when its greeting or one of the complete lines
closes it. Otherwise it keeps reading at the end of the stream, even though its
peer is gone, or its answers are undefined. -/
theorem reads_and_sessions_end :
    (∀ (d : Delivery) (stream : Text), ReadEnds d stream ↔ newline ∈ stream) ∧
    ∀ (cfg : Config) (d : Delivery) (A : Shared σ) (s : σ) (stream : Text),
      SessionEnds cfg d A s stream ↔ StreamCloses cfg d A s stream :=
  ⟨read_ends_iff,session_ends_iff⟩

def emptyAnswers : Shared Unit := fun op s =>
  match op with
  | .receiveString => ([],s)
  | .sendString _ => (true,s)
  | .addDirectory _ => (true,s)
  | .removeDirectory _ => (false,s)
  | .directoriesSize => (0,s)
  | .getList => ([],s)
  | .note _ => ((),s)

/-- A peer that goes away within a line leaves its session reading forever. -/
theorem cut_line_read_forever :
    ¬ ReadEnds byteByByte (text "QUIT") ∧
      ¬ SessionEnds namesConfig byteByByte emptyAnswers () (text "QUIT") := by
  constructor
  · rw [read_ends_iff]
    decide
  · have hlines : (splitLines (text "QUIT")).1 = [] := by decide
    rw [session_ends_iff, streamCloses_iff_line namesConfig_defines byteByByte_reliable]
    · simp [hlines]
    · simp [hlines]

end Workshop.FtpStream
