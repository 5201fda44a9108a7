import Workshop.FtpExchange

/-!
# A session from its first line to its last

Between the client and the server the lines a user types become a talk: each
line is answered with the lines for its command, up to an empty line, the end
of the input or `QUIT`. The client prints this talk and nothing else, however
the transfers are cut and the two programs interleave. Lines typed after
`QUIT` are sent to a server that has left its loop.
-/

set_option autoImplicit false

namespace Workshop.FtpSession
open Workshop.CMemory Workshop.InteractiveProgram Workshop.ByteChannel Workshop.HalfDuplex
open Workshop.RunAhead Workshop.FtpConfig Workshop.FtpCommand Workshop.FtpDirectories
open Workshop.FtpServer Workshop.FtpNetwork Workshop.FtpNames Workshop.FtpClient
open Workshop.FtpLockstep Workshop.FtpExchange

structure Talk (σ : Type) where
  cli : Client
  state : σ
  said : List Text

variable {σ : Type}

def answered (E : Surroundings σ) (cfg : Config) (t : Talk σ) (line : Text) : Talk σ :=
  match createCommand (line++[newline]) with
  | .ok cmd =>
    ⟨afterReply cfg t.cli cmd,E.used t.cli cmd t.state,t.said++E.lines cfg t.cli cmd t.state⟩
  | .error _ => t

def talk (E : Surroundings σ) (cfg : Config) (s : σ) (lines : List Text) : Talk σ :=
  lines.foldl (answered E cfg) ⟨Client.new,s,[reply cfg idNewClient msgNewClient]⟩

def quits (line : Text) : Bool := createCommand (line++[newline]) = .ok .quit

/-- The lines that are answered: those before the first empty one, up to `QUIT`. -/
def served : List Text → List Text
  | [] => []
  | line::lines => if line = [] then [] else if quits line then [line] else line::served lines

def ignored : List Text → List Text
  | [] => []
  | line::lines =>
    if line = [] then [] else if quits line then lines.takeWhile (· ≠ []) else ignored lines

section Talks
variable (E : Surroundings σ) (cfg : Config)

theorem answer_command {t : Talk σ} {line : Text} {cmd : Command}
    (hc : createCommand (line++[newline]) = .ok cmd) :
    answered E cfg t line = ⟨afterReply cfg t.cli cmd,E.used t.cli cmd t.state,
      t.said++E.lines cfg t.cli cmd t.state⟩ := by
  rw [answered, hc]

theorem talk_line (s : σ) (done : List Text) (line : Text) :
    talk E cfg s (done++[line]) = answered E cfg (talk E cfg s done) line := by
  rw [talk, List.foldl_append]
  rfl

theorem talk_said (s : σ) (done more : List Text) :
    (talk E cfg s done).said <+: (talk E cfg s (done++more)).said := by
  induction more using List.reverseRecOn with
  | nil => rw [List.append_nil]
  | append_singleton more line ih =>
    apply ih.trans
    rw [← List.append_assoc, talk_line, answered]
    split
    · exact List.prefix_append _ _
    · exact List.prefix_refl _

theorem answered_quit (hall : cfg.DefinesAll) {t : Talk σ} {line : Text} {cmd : Command}
    (hc : createCommand (line++[newline]) = .ok cmd) :
    (answered E cfg t line).cli.quit = (t.cli.quit || quits line) := by
  obtain ⟨r,hr⟩ := plainReply_total (hall keyUser (by simp [messageKeys]))
    (hall keyPass (by simp [messageKeys])) t.cli cmd
  have hquits : quits line = decide (cmd = .quit) := by simp [quits, hc]
  rw [answer_command E cfg hc, hquits]
  exact afterReply_quit cfg _ cmd fun _ => hr

theorem talk_quit (s : σ) (hall : cfg.DefinesAll) (done : List Text) {line : Text} {cmd : Command}
    (hc : createCommand (line++[newline]) = .ok cmd) :
    (talk E cfg s (done++[line])).cli.quit = ((talk E cfg s done).cli.quit || quits line) := by
  rw [talk_line]
  exact answered_quit E cfg hall hc

theorem answered_named {E : Surroundings σ} {P : σ → Prop} (hE : E.Named P) {t : Talk σ}
    {line : Text} {cmd : Command} (hc : createCommand (line++[newline]) = .ok cmd)
    (hmkd : t.cli.logged = true → ∀ d, cmd = .mkd d → IsName d) (h : P t.state) :
    P (answered E cfg t line).state := by
  rw [answer_command E cfg hc]
  exact used_named hE h hmkd

theorem talk_named {E : Surroundings σ} {P : σ → Prop} (hE : E.Named P) (s : σ) (done : List Text)
    {line : Text} {cmd : Command} (hc : createCommand (line++[newline]) = .ok cmd)
    (hmkd : (talk E cfg s done).cli.logged = true → ∀ d, cmd = .mkd d → IsName d)
    (h : P (talk E cfg s done).state) : P (talk E cfg s (done++[line])).state := by
  rw [talk_line]
  exact answered_named cfg hE hc hmkd h

end Talks

section Served
variable {done : List Text} (h : ∀ line ∈ done, line ≠ [] ∧ quits line = false) (rest : List Text)
include h

theorem served_append : served (done++rest) = done++served rest := by
  induction done with
  | nil => rfl
  | cons line done ih =>
    obtain ⟨hne,hq⟩ := h line List.mem_cons_self
    rw [List.cons_append, served, if_neg hne, hq, if_neg (by simp),
      ih fun l hl => h l (List.mem_cons_of_mem _ hl)]
    rfl

theorem ignored_append : ignored (done++rest) = ignored rest := by
  induction done with
  | nil => rfl
  | cons line done ih =>
    obtain ⟨hne,hq⟩ := h line List.mem_cons_self
    rw [List.cons_append, ignored, if_neg hne, hq, if_neg (by simp)]
    exact ih fun l hl => h l (List.mem_cons_of_mem _ hl)

end Served

def AtGetline {α : Type} (p : ClientProgram α) : Prop := ∃ next, p = .call (.other .getline) next

theorem atGetline_local {α : Type} (p : ClientProgram α) (h : AtGetline p) : Local p := by
  obtain ⟨next,rfl⟩ := h
  exact ⟨_,next,rfl⟩

theorem waiting_not_getline {α : Type} {p : ClientProgram α} (h : Waiting p) : ¬ AtGetline p :=
  fun hp => waiting_not_local h (atGetline_local p hp)

theorem print_not_getline {α : Type} {s : Text} {next : Unit → ClientProgram α} :
    ¬ AtGetline (.call (.other (.print s)) next) := by
  rintro ⟨next',he⟩
  cases he

/-- What one turn of the client reads. -/
inductive Response (stray : Text → ℕ → UInt8) : List Text → Prop
  | line {answer : Text} (hline : IsLine answer) (hcode : getCode stray answer ≠ idListBegin) :
      Response stray [answer]
  | list {first last : Text} {items : List Text} (hfirst : IsLine first)
      (hbegin : getCode stray first = idListBegin) (hlast : IsLine last)
      (hend : getCode stray last = idListEnd)
      (hitems : ∀ l ∈ items, IsLine l ∧ getCode stray l ≠ idListEnd) :
      Response stray (first::(items++[last]))

section Client
variable (stray : Text → ℕ → UInt8) (n m : ℕ)

def catching (p : ClientProgram Unit) : ClientProgram Unit :=
  p.attempt fun e => if e = .thrown then .ret () else .fail e

def asking (response : Text) : ClientProgram Unit := catching (clientLoop stray n m response)

def awaiting : ClientProgram Unit :=
  catching (protocolReceiveString n >>= fun response => printResponse response >>= fun _ =>
    (if isListStart stray response then receiveList stray n else .ret ()) >>= fun _ =>
      clientLoop stray n m response)

def listing (first : Text) (k : ℕ) (item : Text) : ClientProgram Unit :=
  catching (Program.iterate .running (receiveItem stray n) k item >>= fun _ =>
    clientLoop stray n m first)

variable {stray n m}

theorem clientTurn_bind (response : Text) (k : Text ⊕ Unit → ClientProgram Unit) :
    clientTurn stray n response >>= k = .call (.other .getline) fun line =>
      if line = [] then protocolSendString [newline] >>= fun _ => k (.inr ())
      else exchange stray n (line++[newline]) >>= fun response => k (.inl response) := by
  rw [clientTurn, Program.call_bind]
  refine congrArg (Program.call _) (funext fun line => ?_)
  dsimp only
  by_cases hline : line = []
  · subst hline
    have hsame : ¬ ([] : Text)++[newline] ≠ [newline] := not_not.mpr rfl
    rw [if_pos rfl, if_neg hsame, if_pos (.inl rfl), Program.bind_bind]
    rfl
  · have hne : line++[newline] ≠ [newline] := fun h => hline (List.append_left_eq_self.mp h)
    rw [if_neg hline, if_pos hne, Program.bind_bind]
    rfl

theorem asking_getline (response : Text) :
    asking stray n (m+1) response = .call (.other .getline) fun line =>
      if line = [] then catching (protocolSendString [newline] >>= fun _ => .call .shutdown .ret)
      else catching (protocolSendString (line++[newline]) >>= fun _ =>
        protocolReceiveString n >>= fun response => printResponse response >>= fun _ =>
          (if isListStart stray response then receiveList stray n else .ret ()) >>= fun _ =>
            clientLoop stray n m response) := by
  rw [asking, clientLoop, Program.iterate, Program.bind_bind, clientTurn_bind, catching,
    Program.attempt]
  refine congrArg (Program.call _) (funext fun line => ?_)
  split
  · rfl
  · rw [exchange]
    simp only [Program.bind_bind]
    rfl

variable (stray n m) in
theorem asking_sends (line : Text) :
    Sends (catching (protocolSendString (line++[newline]) >>= fun _ =>
        protocolReceiveString n >>= fun response => printResponse response >>= fun _ =>
          (if isListStart stray response then receiveList stray n else .ret ()) >>= fun _ =>
            clientLoop stray n m response)) (transmitted (line++[newline])) (awaiting stray n m) :=
  sends_attempt (sends_last (sendString_sends _) rfl) _

theorem waiting_attempt {I : Interface} {α : Type} {p : Program (net I) Halt α} (h : Waiting p)
    (handler : Halt → Program (net I) Halt α) : Waiting (p.attempt handler) := by
  obtain ⟨len,next,hpos,rfl⟩ := h
  exact ⟨len,_,hpos,rfl⟩

variable (stray m) in
theorem awaiting_waiting (hn : 0 < n) : Waiting (awaiting stray n m) :=
  waiting_attempt (waiting_bind (receiveString_waiting hn) _) _

theorem awaiting_takes {answer : Text} (hline : IsLine answer) (hn : answer.length < n) :
    Takes (awaiting stray n m) answer (.call (.other (.print answer)) fun _ =>
      if isListStart stray answer then listing stray n m answer n []
      else asking stray n m answer) := by
  have htakes := takes_attempt (takes_bind (receiveString_takes (I := terminal) hline hn)
    fun response => printResponse response >>= fun _ =>
      (if isListStart stray response then receiveList stray n else .ret ()) >>= fun _ =>
        clientLoop stray n m response) fun e => if e = .thrown then .ret () else .fail e
  have hafter : (fun _ : Unit => if isListStart stray answer then listing stray n m answer n []
      else asking stray n m answer) = fun _ => catching
        ((if isListStart stray answer then receiveList stray n else .ret ()) >>= fun _ =>
          clientLoop stray n m answer) := by
    split <;> rfl
  rw [hafter]
  exact htakes

theorem listing_takes {first item next : Text} {k : ℕ} (hitem : getCode stray item ≠ idListEnd)
    (hline : IsLine next) (hn : next.length < n) :
    Takes (listing stray n m first (k+1) item) next (.call (.other (.print next)) fun _ =>
      listing stray n m first k next) := by
  rw [listing, Program.iterate, receiveItem, if_neg hitem, Program.bind_bind, Program.bind_bind]
  exact takes_attempt (takes_bind (receiveString_takes hline hn) _) _

theorem listing_end {first item : Text} {k : ℕ} (hitem : getCode stray item = idListEnd) :
    listing stray n m first (k+1) item = asking stray n m first := by
  rw [listing, Program.iterate, receiveItem, if_pos hitem]
  rfl

theorem runClient_takes {greeting : Text} (hline : IsLine greeting) (hn : greeting.length < n) :
    Takes (runClient stray n) greeting (.call (.other (.print greeting)) fun _ =>
      asking stray n n []) :=
  takes_attempt (takes_bind (takes_last (receiveString_takes hline hn) rfl) _) _

end Client

section Reading
variable {J : Interface} {β τ : Type} {HR : Handler J Halt τ}
  {G F : System terminal J Unit β Console τ → Prop} (hw : Watches AtGetline G)
  {r : Endpoint J β τ} (hidle : Idle HR false r []) {stray : Text → ℕ → UInt8} {n m : ℕ}
include hw hidle

theorem ends_print {p : ClientProgram Unit} {next : Unit → ClientProgram Unit} {line inbox : Text}
    (ht : Takes p line (.call (.other (.print line)) next)) {input printed : List Text}
    (h : Ends (Step console HR) G F
      ⟨⟨next (),⟨input,printed++[line]⟩,false⟩,r,inbox,[]⟩) :
    Ends (Step console HR) G F ⟨⟨p,⟨input,printed⟩,false⟩,r,line++inbox,[]⟩ := by
  have hprint : console (.print line) ⟨input,printed⟩ = (.ok (),⟨input,printed++[line]⟩) := rfl
  exact left_takes hw ht hidle (left_other hw hprint print_not_getline h)

theorem ends_items {first last : Text} (hlast : IsLine last) (hend : getCode stray last = idListEnd)
    {items : List Text} (hitems : ∀ l ∈ items, IsLine l ∧ getCode stray l ≠ idListEnd)
    (hn : ∀ l ∈ items++[last], l.length < n) {item : Text} (hitem : getCode stray item ≠ idListEnd)
    {k : ℕ} (hk : items.length+1 < k) {input printed : List Text}
    (h : Ends (Step console HR) G F
      ⟨⟨asking stray n m first,⟨input,printed++(items++[last])⟩,false⟩,r,[],[]⟩) :
    Ends (Step console HR) G F
      ⟨⟨listing stray n m first k item,⟨input,printed⟩,false⟩,r,(items++[last]).flatten,[]⟩ := by
  induction items generalizing item k printed with
  | nil =>
    obtain ⟨k,rfl⟩ : ∃ i, k = i+2 := ⟨k-2,by simp at hk; omega⟩
    apply ends_print hw hidle (listing_takes hitem hlast (hn last (by simp)))
    rw [listing_end hend]
    exact h
  | cons next items ih =>
    obtain ⟨k,rfl⟩ : ∃ i, k = i+1 := ⟨k-1,by omega⟩
    rw [List.length_cons] at hk
    obtain ⟨hline,hcode⟩ := hitems next List.mem_cons_self
    apply ends_print hw hidle (listing_takes hitem hline (hn next (by simp)))
    apply ih (fun l hl => hitems l (List.mem_cons_of_mem _ hl))
      (fun l hl => hn l (List.mem_cons_of_mem _ hl)) hcode (by omega)
    rwa [List.append_assoc, List.singleton_append]

theorem ends_response {lines : List Text} (hr : Response stray lines)
    (hn : ∀ l ∈ lines, l.length < n) (hcount : lines.length < n) {input printed : List Text}
    (h : ∀ response, Ends (Step console HR) G F
      ⟨⟨asking stray n m response,⟨input,printed++lines⟩,false⟩,r,[],[]⟩) :
    Ends (Step console HR) G F
      ⟨⟨awaiting stray n m,⟨input,printed⟩,false⟩,r,lines.flatten,[]⟩ := by
  cases hr with
  | @line answer hline hcode =>
    apply ends_print hw hidle (awaiting_takes hline (hn answer (by simp)))
    rw [if_neg (by simpa [isListStart] using hcode)]
    exact h answer
  | @list first last items hfirst hbegin hlast hend hitems =>
    rw [List.flatten_cons]
    apply ends_print hw hidle (awaiting_takes hfirst (hn first (by simp)))
    rw [if_pos (by simpa [isListStart] using hbegin)]
    apply ends_items hw hidle hlast hend hitems (fun l hl => hn l (List.mem_cons_of_mem _ hl))
      (getCode_nil stray) (by simp at hcount; omega)
    rw [List.append_assoc, List.singleton_append]
    exact h first

end Reading

section Answers
variable {E : Surroundings σ} {cfg : Config} {s : σ} {cli : Client} {P : σ → Prop}
  (hE : E.Named P) (hs : P s) (hall : cfg.DefinesAll)
  (hvalues : ∀ key ∈ messageKeys, IsLine (cfg.value key))
include hE hs hall hvalues

theorem lines_response {cmd : Command}
    (hmkd : cli.logged = true → ∀ d, cmd = .mkd d → IsName d) (stray : Text → ℕ → UInt8) :
    Response stray (E.lines cfg cli cmd s) := by
  by_cases hl : Lists cli cmd
  · have hafter : P (E.after .directoriesSize s) := hE.after _ s hs fun _ h => by cases h
    have hline : ∀ message id, message ∈ messageKeys → newline ∉ id →
        IsLine (reply cfg id message) := fun message id hkey hid => reply_line hvalues hkey hid
    have hcode : ∀ id : Text, id.length = 3 → ∀ message, getCode stray (reply cfg id message) = id := by
      intro id hid message
      rw [reply, List.append_assoc, getCode_append stray hid]
    rw [Surroundings.lines, answerLines, if_pos hl]
    apply Response.list
    · exact hline msgListBegin idListBegin (by simp [messageKeys]) (by decide)
    · exact hcode idListBegin (by decide) _
    · exact hline msgListEnd idListEnd (by simp [messageKeys]) (by decide)
    · exact hcode idListEnd (by decide) _
    · intro l hmem
      obtain ⟨hline,hne,-⟩ := entries_lines (names_lined (hE.names _ hafter)) stray l hmem
      exact ⟨hline,hne⟩
  · have hplain := answer_plain_line hvalues hall hl (names_lined (hE.names s hs)) hmkd
    rw [Surroundings.lines, answerLines, if_neg hl]
    exact .line hplain.line (hplain.code stray)

theorem emits_answer (n : ℕ) {query : Text} {cmd : Command} (hc : createCommand query = .ok cmd)
    (hmkd : cli.logged = true → ∀ d, cmd = .mkd d → IsName d)
    (hw : Whole cfg cli cmd (E.set s) (E.set (E.after .directoriesSize s)))
    (f : Client → Session Unit) :
    Emits (answering E.answers) (serving n (answerQuery cfg query cli >>= f)) s
      (E.lines cfg cli cmd s).flatten (serving n (f (afterReply cfg cli cmd)))
      (E.used cli cmd s) := by
  have hreceived : answering E.answers (.note (.received cli query)) s = (.ok (),s) := rfl
  have hhandled : answering E.answers (.note (.handled (afterReply cfg cli cmd)))
      (E.used cli cmd s) = (.ok (),E.used cli cmd s) := rfl
  have hbody : respondQuery cfg query cli >>= (fun cli =>
      .call (.note (.handled cli)) fun _ => .ret cli) >>= f =
      sendResponse cfg cli cmd >>= fun cli => .call (.note (.handled cli)) fun _ => f cli := by
    rw [respondQuery, hc, Program.lift_ok, Program.ret_bind, Program.bind_bind]
    rfl
  apply Emits.other hreceived
  have hemits := emits_response n hE hs hall hvalues hmkd hw fun cli =>
    .call (.note (.handled cli)) fun _ => f cli
  have hnote : Emits (answering E.answers) (serving n (.call
      (.note (.handled (afterReply cfg cli cmd))) fun _ => f (afterReply cfg cli cmd)))
      (E.used cli cmd s) [] (serving n (f (afterReply cfg cli cmd))) (E.used cli cmd s) :=
    .other hhandled (.done _ _)
  have hboth := emits_trans hemits hnote
  rw [List.append_nil, ← hbody] at hboth
  exact hboth

end Answers

theorem respond_sends {cfg : Config} (n : ℕ) (hk : cfg.Defines msgNewClient)
    (hfit : (reply cfg idNewClient msgNewClient).length < 2^31) :
    Sends ((respondClient cfg n).interp (overSocket n)) (reply cfg idNewClient msgNewClient)
      (serverLoop cfg n n Client.new) := by
  have hsend := serving_send n (reply cfg idNewClient msgNewClient) fun _ =>
    Program.iterate .running (serveQuery cfg) n Client.new >>= fun _ => .ret ()
  rw [transmitted_small hfit] at hsend
  rw [respondClient_serving, sendHello, formatCmd_eq hk]
  exact hsend

def connected (stray : Text → ℕ → UInt8) (cfg : Config) (n : ℕ) (typed : List Text) (s : σ) :
    System terminal server Unit Unit Console σ :=
  quiet (runClient stray n) ⟨typed,[]⟩ ((respondClient cfg n).interp (overSocket n)) s

/-- The line can be answered at this point of the talk: the answer is not too
long for `Socket::send`, and a directory it makes has a name. -/
structure Answerable (E : Surroundings σ) (cfg : Config) (t : Talk σ) (line : Text) : Prop where
  named : ¬ Nameless t.cli (line++[newline])
  whole : ∀ cmd, createCommand (line++[newline]) = .ok cmd →
    Whole cfg t.cli cmd (E.set t.state) (E.set (E.after .directoriesSize t.state))

structure Room (E : Surroundings σ) (cfg : Config) (n : ℕ) (t : Talk σ) (line : Text) : Prop where
  query : line.length+1 < n
  each : ∀ cmd, createCommand (line++[newline]) = .ok cmd →
    ∀ l ∈ E.lines cfg t.cli cmd t.state, l.length < n
  count : ∀ cmd, createCommand (line++[newline]) = .ok cmd →
    (E.lines cfg t.cli cmd t.state).length < n

section Sessions
variable (E : Surroundings σ) (cfg : Config) (s0 : σ) (typed : List Text)

/-- Before the user is asked for a line, nothing is under way and the client has
printed the talk about the lines before it. -/
structure InStep (u : System terminal server Unit Unit Console σ) : Prop where
  toLeft : u.toLeft = []
  toRight : u.toRight = []
  printed : ∃ done, typed = done++u.left.state.input ∧ done <+: served typed ∧
    u.left.state.printed = (talk E cfg s0 done).said

/-- The thread of the server has returned. The client has returned too, unless
the user typed on after `QUIT`: it waits for an answer to a line that nobody
receives. -/
structure Settled (u : System terminal server Unit Unit Console σ) : Prop where
  server : u.right.program = .ret ()
  state : u.right.state = (talk E cfg s0 (served typed)).state
  printed : u.left.state.printed = (talk E cfg s0 (served typed)).said
  toLeft : u.toLeft = []
  left : ignored typed = [] → u.left.program = .ret () ∧ u.left.closed = true
  stuck : ∀ line more, ignored typed = line::more →
    Waiting u.left.program ∧ u.left.closed = false ∧ u.toRight = line++[newline]

def Good (u : System terminal server Unit Unit Console σ) : Prop :=
  AtGetline u.left.program → InStep E cfg s0 typed u

theorem good_watches : Watches AtGetline (Good E cfg s0 typed) where
  own := atGetline_local
  free u h := fun hp => absurd hp h
  quiet l r r' i bs o h := by
    intro hp
    obtain ⟨hleft,hright,hprinted⟩ := h hp
    exact ⟨(List.append_eq_nil_iff.mp hleft).1,hright,hprinted⟩

variable {E cfg s0 typed} {stray : Text → ℕ → UInt8} {n m k : ℕ} {response : Text} {done : List Text}

theorem answered_line {line : Text} (hline : newline ∉ line) : IsLine (line++[newline]) :=
  ⟨line,hline,rfl⟩

theorem good_asking {input printed : List Text} {p : ClientProgram Unit} {closed : Bool}
    {r : Endpoint server Unit σ} (htyped : typed = done++input) (hdone : done <+: served typed)
    (hprinted : printed = (talk E cfg s0 done).said) :
    Good E cfg s0 typed ⟨⟨p,⟨input,printed⟩,closed⟩,r,[],[]⟩ :=
  fun _ => ⟨rfl,rfl,done,htyped,hdone,hprinted⟩

theorem ends_leaving {input printed : List Text} {r : Endpoint server Unit σ}
    (hinput : input.headD [] = []) (htyped : typed = done++input) (hdone : done <+: served typed)
    (hprinted : printed = (talk E cfg s0 done).said)
    (hidle : Idle (answering E.answers) false r [])
    (h : Ends (Step console (answering E.answers)) (Good E cfg s0 typed) (Settled E cfg s0 typed)
      ⟨⟨.ret (),⟨input.tail,printed⟩,true⟩,r,[],[newline]⟩) :
    Ends (Step console (answering E.answers)) (Good E cfg s0 typed) (Settled E cfg s0 typed)
      ⟨⟨asking stray n (m+1) response,⟨input,printed⟩,false⟩,r,[],[]⟩ := by
  have hread : console .getline ⟨input,printed⟩ = (.ok [],⟨input.tail,printed⟩) := by
    rw [console, hinput]
  have hw := good_watches E cfg s0 typed
  have hsend : Sends (catching (protocolSendString [newline] >>= fun _ => .call .shutdown .ret))
      [newline] (.call .shutdown .ret) := by
    have hsmall : transmitted [newline] = [newline] := transmitted_small (by decide)
    rw [← hsmall]
    exact sends_attempt (sends_last (sendString_sends _) rfl) _
  rw [asking_getline]
  apply left_seen hread hidle (good_asking htyped hdone hprinted)
  rw [if_pos rfl]
  apply left_sends hw hsend
  exact left_shutdown hw h

theorem ends_typed {line : Text} {rest printed : List Text} {r : Endpoint server Unit σ}
    (hne : line ≠ []) (hsize : line.length+1 < 2^31) (htyped : typed = done++line::rest)
    (hdone : done <+: served typed) (hprinted : printed = (talk E cfg s0 done).said)
    (hidle : Idle (answering E.answers) false r [])
    (h : Ends (Step console (answering E.answers)) (Good E cfg s0 typed) (Settled E cfg s0 typed)
      ⟨⟨awaiting stray n m,⟨rest,printed⟩,false⟩,r,[],line++[newline]⟩) :
    Ends (Step console (answering E.answers)) (Good E cfg s0 typed) (Settled E cfg s0 typed)
      ⟨⟨asking stray n (m+1) response,⟨line::rest,printed⟩,false⟩,r,[],[]⟩ := by
  have hread : console .getline ⟨line::rest,printed⟩ = (.ok line,⟨rest,printed⟩) := rfl
  have hsend := asking_sends stray n m line
  rw [transmitted_small (by simpa using hsize)] at hsend
  rw [asking_getline]
  apply left_seen hread hidle (good_asking htyped hdone hprinted)
  rw [if_neg hne]
  exact left_sends (good_watches E cfg s0 typed) hsend h

theorem ends_quit (hn : 0 < n) {rest printed : List Text} {t : σ} (htyped : typed = done++rest)
    (hserved : served typed = done) (hignored : ignored typed = rest.takeWhile (· ≠ []))
    (hlines : ∀ line ∈ rest, line.length+1 < 2^31)
    (hprinted : printed = (talk E cfg s0 done).said) (hstate : t = (talk E cfg s0 done).state) :
    Ends (Step console (answering E.answers)) (Good E cfg s0 typed) (Settled E cfg s0 typed)
      ⟨⟨asking stray n (m+1) response,⟨rest,printed⟩,false⟩,⟨.ret (),t,false⟩,[],[]⟩ := by
  have hidle : Idle (answering E.answers) false ⟨(.ret () : Program (net server) Halt Unit),t,false⟩
      [] := idle_ret () false
  have hdone : done <+: served typed := by rw [hserved]
  have hw := good_watches E cfg s0 typed
  have hleaves (hinput : rest.headD [] = []) (hnone : ignored typed = []) :
      Ends (Step console (answering E.answers)) (Good E cfg s0 typed) (Settled E cfg s0 typed)
        ⟨⟨asking stray n (m+1) response,⟨rest,printed⟩,false⟩,⟨.ret (),t,false⟩,[],[]⟩ := by
    apply ends_leaving hinput htyped hdone hprinted hidle
    apply ends_still hw (idle_ret () true) (idle_ret () false) (fun hp => ret_not_local () (atGetline_local _ hp))
    refine ⟨rfl,?_,?_,rfl,fun _ => ⟨rfl,rfl⟩,?_⟩
    · rw [hserved, hstate]
    · rw [hserved, hprinted]
    · intro line more h
      rw [hnone] at h
      cases h
  cases rest with
  | nil => exact hleaves rfl (by rw [hignored]; rfl)
  | cons line rest =>
    by_cases hne : line = []
    · subst hne
      exact hleaves rfl (by rw [hignored]; rfl)
    · apply ends_typed hne (hlines line List.mem_cons_self) htyped hdone hprinted hidle
      have hwait := awaiting_waiting stray m hn
      have hkept : ignored typed = line::rest.takeWhile (· ≠ []) := by
        rw [hignored, List.takeWhile_cons_of_pos (by simpa using hne)]
      apply ends_still hw (idle_waiting hwait) (idle_ret () false) (waiting_not_getline hwait)
      refine ⟨rfl,?_,?_,rfl,?_,?_⟩
      · rw [hserved, hstate]
      · rw [hserved, hprinted]
      · intro h
        rw [hkept] at h
        cases h
      · intro line' more h
        rw [hkept] at h
        cases h
        exact ⟨hwait,rfl,rfl⟩

theorem ends_empty {rest printed : List Text} {cli : Client} {t : σ} (hinput : rest.headD [] = [])
    (htyped : typed = done++rest) (hserved : served typed = done) (hignored : ignored typed = [])
    (hcli : cli.quit = false) (hn : 1 < n) (hprinted : printed = (talk E cfg s0 done).said)
    (hstate : t = (talk E cfg s0 done).state) :
    Ends (Step console (answering E.answers)) (Good E cfg s0 typed) (Settled E cfg s0 typed)
      ⟨⟨asking stray n (m+1) response,⟨rest,printed⟩,false⟩,
        ⟨serverLoop cfg n (k+2) cli,t,false⟩,[],[]⟩ := by
  have hw := good_watches E cfg s0 typed
  have hdone : done <+: served typed := by rw [hserved]
  have hret : ¬ AtGetline (.ret () : ClientProgram Unit) :=
    fun hp => ret_not_local () (atGetline_local _ hp)
  have hwait : Waiting (serverLoop cfg n (k+2) cli) :=
    serverLoop_waiting hcli (Nat.zero_lt_of_lt hn)
  apply ends_leaving hinput htyped hdone hprinted (idle_waiting hwait)
  show Ends _ _ _ (System.mk _ _ _ ([newline]++[]))
  apply right_takes hw (serverLoop_empty hcli hn) (idle_ret () true) hret
  apply ends_still hw (idle_ret () true) (idle_ret () false) hret
  refine ⟨rfl,?_,?_,rfl,fun _ => ⟨rfl,rfl⟩,?_⟩
  · rw [hserved, hstate]
  · rw [hserved, hprinted]
  · intro line more h
    rw [hignored] at h
    cases h

theorem ends_over {rest : List Text} (htyped : typed = done++rest)
    (hdone : ∀ line ∈ done, line ≠ [] ∧ quits line = false)
    (hcli : (talk E cfg s0 done).cli.quit = false) (hinput : rest.headD [] = [])
    (hserved : served rest = []) (hignored : ignored rest = []) (hn : 1 < n) :
    Ends (Step console (answering E.answers)) (Good E cfg s0 typed) (Settled E cfg s0 typed)
      ⟨⟨asking stray n (m+1) response,⟨rest,(talk E cfg s0 done).said⟩,false⟩,
        ⟨serverLoop cfg n (k+2) (talk E cfg s0 done).cli,(talk E cfg s0 done).state,false⟩,[],[]⟩ := by
  apply ends_empty hinput htyped _ _ hcli hn rfl rfl
  · rw [htyped, served_append hdone, hserved, List.append_nil]
  · rw [htyped, ignored_append hdone, hignored]

theorem answerable_names {t : Talk σ} {line : Text} (h : Answerable E cfg t line)
    (hline : newline ∉ line) {cmd : Command} (hc : createCommand (line++[newline]) = .ok cmd) :
    t.cli.logged = true → ∀ d, cmd = .mkd d → IsName d := by
  intro hl d hd
  subst hd
  rcases create_mkd (answered_line hline) hc with ⟨hq,_⟩ | ⟨hd,hlen⟩
  · exact absurd ⟨hl,hq⟩ h.named
  · exact isName_line hd hlen

section Turns
variable {P : σ → Prop} (hE : E.Named P) (hall : cfg.DefinesAll)
  (hvalues : ∀ key ∈ messageKeys, IsLine (cfg.value key))
include hE hall hvalues

theorem ends_turn {line : Text} {rest printed : List Text} {cli : Client} {t : σ} {cmd : Command}
    (hline : newline ∉ line) (hne : line ≠ []) (hsize : line.length+1 < 2^31)
    (htyped : typed = done++line::rest) (hdone : done <+: served typed)
    (hprinted : printed = (talk E cfg s0 done).said) (hcli : cli.quit = false) (ht : P t)
    (hc : createCommand (line++[newline]) = .ok cmd)
    (hmkd : cli.logged = true → ∀ d, cmd = .mkd d → IsName d)
    (hwhole : Whole cfg cli cmd (E.set t) (E.set (E.after .directoriesSize t)))
    (hquery : (line++[newline]).length < n) (hn : ∀ l ∈ E.lines cfg cli cmd t, l.length < n)
    (hcount : (E.lines cfg cli cmd t).length < n)
    (h : ∀ response, Ends (Step console (answering E.answers)) (Good E cfg s0 typed)
      (Settled E cfg s0 typed)
      ⟨⟨asking stray n m response,⟨rest,printed++E.lines cfg cli cmd t⟩,false⟩,
        ⟨serverLoop cfg n (k+1) (afterReply cfg cli cmd),E.used cli cmd t,false⟩,[],[]⟩) :
    Ends (Step console (answering E.answers)) (Good E cfg s0 typed) (Settled E cfg s0 typed)
      ⟨⟨asking stray n (m+1) response,⟨line::rest,printed⟩,false⟩,
        ⟨serverLoop cfg n (k+2) cli,t,false⟩,[],[]⟩ := by
  have hw := good_watches E cfg s0 typed
  have hpos : 0 < n := Nat.zero_lt_of_lt hquery
  have hlen : 1 < (line++[newline]).length := by
    have := List.length_pos_iff.mpr hne
    rw [List.length_append, List.length_singleton]
    omega
  have hidle : Idle (answering E.answers) false
      ⟨serverLoop cfg n (k+1) (afterReply cfg cli cmd),E.used cli cmd t,false⟩ [] := by
    cases hq : (afterReply cfg cli cmd).quit with
    | true =>
      rw [serverLoop_quit hq]
      exact idle_ret () false
    | false => exact idle_waiting (serverLoop_waiting hq hpos)
  have hwait := awaiting_waiting stray m hpos
  have htakes := @serverLoop_takes cfg n (k+1) cli hcli _ (answered_line hline) hquery hlen
  apply ends_typed hne hsize htyped hdone hprinted (idle_waiting (serverLoop_waiting hcli hpos))
  rw [← List.append_nil (line++[newline])]
  apply right_takes hw htakes (idle_waiting hwait) (waiting_not_getline hwait)
  apply right_emits hw (emits_answer hE ht hall hvalues n hc hmkd hwhole _)
  rw [List.nil_append]
  exact ends_response hw hidle (lines_response hE ht hall hvalues hmkd stray) hn hcount h

theorem ends_line {line : Text} {rest : List Text} {cmd : Command} (hline : newline ∉ line)
    (hne : line ≠ []) (hsize : line.length+1 < 2^31) (htyped : typed = done++line::rest)
    (hdone : done <+: served typed) (hcli : (talk E cfg s0 done).cli.quit = false)
    (ht : P (talk E cfg s0 done).state) (hc : createCommand (line++[newline]) = .ok cmd)
    (hanswer : Answerable E cfg (talk E cfg s0 done) line)
    (hroom : Room E cfg n (talk E cfg s0 done) line)
    (hrest : ∀ response, Ends (Step console (answering E.answers)) (Good E cfg s0 typed)
      (Settled E cfg s0 typed)
      ⟨⟨asking stray n m response,⟨rest,(talk E cfg s0 (done++[line])).said⟩,false⟩,
        ⟨serverLoop cfg n (k+1) (talk E cfg s0 (done++[line])).cli,
          (talk E cfg s0 (done++[line])).state,false⟩,[],[]⟩) :
    Ends (Step console (answering E.answers)) (Good E cfg s0 typed) (Settled E cfg s0 typed)
      ⟨⟨asking stray n (m+1) response,⟨line::rest,(talk E cfg s0 done).said⟩,false⟩,
        ⟨serverLoop cfg n (k+2) (talk E cfg s0 done).cli,(talk E cfg s0 done).state,false⟩,[],[]⟩ := by
  rw [talk_line, answer_command E cfg hc] at hrest
  obtain ⟨hquery,hlines,hcount⟩ := hroom
  have hquery : (line++[newline]).length < n := by
    rw [List.length_append, List.length_singleton]
    exact hquery
  exact ends_turn hE hall hvalues hline hne hsize htyped hdone rfl hcli ht hc
    (answerable_names hanswer hline hc) (hanswer.whole cmd hc) hquery (hlines cmd hc)
    (hcount cmd hc) hrest

/-- The run lemma, by induction on the lines that are left. -/
theorem ends_session {rest : List Text} (htyped : typed = done++rest)
    (hdone : ∀ line ∈ done, line ≠ [] ∧ quits line = false)
    (hlines : ∀ line ∈ rest, newline ∉ line ∧ line.length+1 < 2^31)
    (hanswers : ∀ d line, d++[line] <+: served typed → Answerable E cfg (talk E cfg s0 d) line)
    (hroom : ∀ d line, d++[line] <+: served typed → Room E cfg n (talk E cfg s0 d) line)
    (hcli : (talk E cfg s0 done).cli.quit = false) (ht : P (talk E cfg s0 done).state)
    (hn : 1 < n) (hm : rest.length < m) (hk : rest.length+1 < k) :
    Ends (Step console (answering E.answers)) (Good E cfg s0 typed) (Settled E cfg s0 typed)
      ⟨⟨asking stray n m response,⟨rest,(talk E cfg s0 done).said⟩,false⟩,
        ⟨serverLoop cfg n k (talk E cfg s0 done).cli,(talk E cfg s0 done).state,false⟩,[],[]⟩ := by
  induction rest generalizing done m k response with
  | nil =>
    obtain ⟨m,rfl⟩ : ∃ i, m = i+1 := ⟨m-1,by omega⟩
    obtain ⟨k,rfl⟩ : ∃ i, k = i+2 := ⟨k-2,by omega⟩
    exact ends_over htyped hdone hcli rfl rfl rfl hn
  | cons line rest ih =>
    obtain ⟨m,rfl⟩ : ∃ i, m = i+1 := ⟨m-1,by omega⟩
    obtain ⟨k,rfl⟩ : ∃ i, k = i+2 := ⟨k-2,by omega⟩
    rw [List.length_cons] at hm hk
    by_cases hne : line = []
    · subst hne
      exact ends_over htyped hdone hcli rfl rfl rfl hn
    obtain ⟨⟨hline,hsize⟩,hrest⟩ := List.forall_mem_cons.mp hlines
    obtain ⟨cmd,hc⟩ := create_total (show line++[newline] ≠ [] by simp)
    have hserved : served typed = done++served (line::rest) := by rw [htyped, served_append hdone]
    have hignored : ignored typed = ignored (line::rest) := by rw [htyped, ignored_append hdone]
    rw [served, if_neg hne] at hserved
    rw [ignored, if_neg hne] at hignored
    have hinitial : done++[line] <+: served typed := by
      rw [hserved]
      split
      · exact List.prefix_refl _
      · exact ⟨served rest,by simp⟩
    have hanswer := hanswers done line hinitial
    have hnext : typed = (done++[line])++rest := by rw [htyped]; simp
    have hquit := talk_quit E cfg s0 hall done hc
    rw [hcli, Bool.false_or] at hquit
    apply ends_line hE hall hvalues hline hne hsize htyped
      ((List.prefix_append done [line]).trans hinitial) hcli ht hc hanswer (hroom done line hinitial)
    intro response
    cases hq : quits line with
    | true =>
      rw [hq, if_pos rfl] at hserved hignored
      obtain ⟨m,rfl⟩ : ∃ i, m = i+1 := ⟨m-1,by omega⟩
      rw [serverLoop_quit (hquit.trans hq)]
      exact ends_quit (by omega) hnext hserved hignored (fun l hl => (hrest l hl).2) rfl rfl
    | false =>
      have hdone' : ∀ l ∈ done++[line], l ≠ [] ∧ quits l = false := by
        intro l hl
        rcases List.mem_append.mp hl with hl | hl
        · exact hdone l hl
        · rw [List.mem_singleton.mp hl]
          exact ⟨hne,hq⟩
      exact ih hnext hdone' hrest (hquit.trans hq)
        (talk_named cfg hE s0 done hc (answerable_names hanswer hline hc) ht) (by omega) (by omega)

variable (stray) in
theorem ends_connected (hgreeting : replySize cfg msgNewClient < 2^31) (hs0 : P s0)
    (hlines : ∀ line ∈ typed, newline ∉ line ∧ line.length+1 < 2^31)
    (hanswers : ∀ d line, d++[line] <+: served typed → Answerable E cfg (talk E cfg s0 d) line)
    (hroom : ∀ d line, d++[line] <+: served typed → Room E cfg n (talk E cfg s0 d) line)
    (hn : typed.length+1 < n) (hhello : replySize cfg msgNewClient < n) :
    Ends (Step console (answering E.answers)) (Good E cfg s0 typed) (Settled E cfg s0 typed)
      (connected stray cfg n typed s0) := by
  have hgreet : IsLine (reply cfg idNewClient msgNewClient) :=
    reply_line hvalues (by simp [messageKeys]) (by decide)
  rw [← reply_size cfg (show idNewClient.length = 3 by decide)] at hgreeting hhello
  have hwait : Idle (answering E.answers) false ⟨serverLoop cfg n n Client.new,s0,false⟩ [] := by
    obtain ⟨k,rfl⟩ : ∃ i, n = i+1 := ⟨n-1,by omega⟩
    exact idle_waiting (serverLoop_waiting rfl (by omega))
  apply right_emits (good_watches E cfg s0 typed)
    (emits_sends (respond_sends n (hall msgNewClient (by simp [messageKeys])) hgreeting))
  rw [List.nil_append, ← List.append_nil (reply cfg idNewClient msgNewClient)]
  apply ends_print (good_watches E cfg s0 typed) hwait (runClient_takes hgreet hhello)
  exact ends_session hE hall hvalues (List.nil_append typed).symm (by simp) hlines hanswers hroom rfl
    hs0 (by omega) (by omega) hn

end Turns

end Sessions

def room (E : Surroundings σ) (cfg : Config) (s : σ) (typed : List Text) : ℕ :=
  (talk E cfg s (served typed)).said.flatten.length+(talk E cfg s (served typed)).said.length+
    typed.flatten.length+typed.length+1

theorem served_initial (typed : List Text) : served typed <+: typed := by
  induction typed with
  | nil => exact List.nil_prefix
  | cons line typed ih =>
    rw [served]
    split
    · exact List.nil_prefix
    · split
      · exact ⟨typed,rfl⟩
      · exact (List.prefix_cons_inj line).mpr ih

theorem room_initial (E : Surroundings σ) (cfg : Config) (s : σ) {typed d : List Text} {line : Text}
    (h : d++[line] <+: served typed) {n : ℕ} (hn : room E cfg s typed < n) :
    Room E cfg n (talk E cfg s d) line := by
  have hline : line ∈ typed := (served_initial typed).subset (h.subset (by simp))
  have hquery := (List.sublist_flatten_of_mem hline).length_le
  have hpos := List.length_pos_of_mem hline
  obtain ⟨more,hmore⟩ := h
  have hsaid := talk_said E cfg s (d++[line]) more
  rw [hmore] at hsaid
  have hlines (cmd : Command) (hc : createCommand (line++[newline]) = .ok cmd) :
      (E.lines cfg (talk E cfg s d).cli cmd (talk E cfg s d).state).Sublist
        (talk E cfg s (served typed)).said := by
    rw [talk_line, answer_command E cfg hc] at hsaid
    exact (List.sublist_append_right _ _).trans hsaid.sublist
  rw [room] at hn
  refine ⟨by omega,?_,?_⟩
  · intro cmd hc l hl
    have hle := (List.sublist_flatten_of_mem ((hlines cmd hc).subset hl)).length_le
    omega
  · intro cmd hc
    have hle := (hlines cmd hc).length_le
    omega

theorem snoc_initial {α : Type} {done l : List α} {x : α} (h : done++[x] <+: l) :
    ∃ k < l.length, done = l.take k ∧ l[k]? = some x := by
  obtain ⟨more,rfl⟩ := h
  refine ⟨done.length,by simp,by simp,by simp⟩

instance wholeDecidable (cfg : Config) (cli : Client) (cmd : Command) (s s' : Directories) :
    Decidable (Whole cfg cli cmd s s') :=
  inferInstanceAs (Decidable (if Lists cli cmd then
    replySize cfg msgListBegin < 2^31 ∧ replySize cfg msgListEnd < 2^31 ∧
      (s ≠ ∅ → (0 < narrow s.card ∨ s' = ∅) ∧ listingSize s' < 2^31)
    else answerSize cfg cli s cmd < 2^31))

theorem answerable_line {E : Surroundings σ} {cfg : Config} {t : Talk σ} {line : Text} (cmd : Command)
    (hc : createCommand (line++[newline]) = .ok cmd) (hn : ¬ Nameless t.cli (line++[newline]))
    (hw : Whole cfg t.cli cmd (E.set t.state) (E.set (E.after .directoriesSize t.state))) :
    Answerable E cfg t line where
  named := hn
  whole cmd' hc' := by
    rw [hc] at hc'
    cases hc'
    exact hw

end Workshop.FtpSession
