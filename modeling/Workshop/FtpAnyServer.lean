import Workshop.FtpAnyClient

/-!
# The client before a server that sends anything

The client believes every line it receives. It shows the line, and the code at
its start decides whether more lines are awaited or the user is asked for the
next one. So a server can keep it in a list forever, but it can neither make it
send a line the user has not typed nor show one that was not sent.
-/

set_option autoImplicit false

namespace Workshop.FtpAnyServer
open Workshop.CMemory Workshop.InteractiveProgram Workshop.ByteChannel Workshop.HalfDuplex
open Workshop.RunAhead Workshop.OpenConnection Workshop.FtpConfig Workshop.FtpCommand
open Workshop.FtpServer Workshop.FtpNetwork Workshop.FtpClient Workshop.FtpExchange
open Workshop.FtpSession Workshop.FtpAnyClient

inductive Mode where
  | greeting
  | answer
  | item
  | left
  deriving DecidableEq

/-- What the next line is to the client, its terminal, and what it has sent. -/
structure Dialogue where
  mode : Mode
  terminal : Console
  sent : Text

def nextLine (c : Console) : Text := c.input.headD []

/-- The user is asked, and the line is sent. An empty one is the last. -/
def Dialogue.ask (d : Dialogue) : Dialogue :=
  ⟨if nextLine d.terminal = [] then .left else .answer,
    ⟨d.terminal.input.tail,d.terminal.printed⟩,d.sent++transmitted (nextLine d.terminal++[newline])⟩

section Dialogues
variable (stray : Text → ℕ → UInt8)

def continues (mode : Mode) (line : Text) : Bool :=
  match mode with
  | .answer => isListStart stray line
  | .item => getCode stray line ≠ idListEnd
  | _ => false

def Dialogue.prints (d : Dialogue) (line : Text) : Dialogue :=
  { d with terminal := ⟨d.terminal.input,d.terminal.printed++[line]⟩ }

def Dialogue.hear (d : Dialogue) (line : Text) : Dialogue :=
  if d.mode = .left then d
  else if continues stray d.mode line then { d.prints line with mode := .item }
  else (d.prints line).ask

def connecting (typed : List Text) : Dialogue := ⟨.greeting,⟨typed,[]⟩,[]⟩

def dialogue (typed lines : List Text) : Dialogue :=
  lines.foldl (Dialogue.hear stray) (connecting typed)

def client : Machine Dialogue where
  after := Dialogue.hear stray
  answer d line :=
    if continues stray d.mode line then [] else transmitted (nextLine d.terminal++[newline])
  stopped d := d.mode = .left

variable {stray} {d : Dialogue} {line : Text}

theorem hear_more (hgoing : d.mode ≠ .left) (hmore : continues stray d.mode line = true) :
    d.hear stray line = { d.prints line with mode := .item } := by
  rw [Dialogue.hear, if_neg hgoing, if_pos hmore]

theorem hear_last (hgoing : d.mode ≠ .left) (hlast : continues stray d.mode line = false) :
    d.hear stray line = (d.prints line).ask := by
  rw [Dialogue.hear, if_neg hgoing, if_neg (by simp [hlast])]

theorem hear_left (hleft : d.mode = .left) : d.hear stray line = d := if_pos hleft

theorem ask_mode (d : Dialogue) :
    d.ask.mode = if nextLine d.terminal = [] then .left else .answer := rfl

theorem going_iff : (client stray).stopped d = false ↔ d.mode ≠ .left := decide_eq_false_iff_not

theorem hear_sent (hgoing : d.mode ≠ .left) :
    (d.hear stray line).sent = d.sent++(client stray).answer d line := by
  cases hmore : continues stray d.mode line with
  | true =>
    rw [hear_more hgoing hmore]
    simp only [client, hmore, if_true, List.append_nil, Dialogue.prints]
  | false =>
    rw [hear_last hgoing hmore]
    simp only [client, hmore, Bool.false_eq_true, if_false]
    rfl

theorem client_reached (lines : List Text) :
    (client stray).reached d lines = lines.foldl (Dialogue.hear stray) d := by
  induction lines generalizing d with
  | nil => rfl
  | cons line lines ih =>
    rw [Machine.reached, List.foldl_cons]
    split
    · rename_i hleft
      have hleft := of_decide_eq_true hleft
      rw [hear_left hleft, ← ih, Machine.reached_stopped (decide_eq_true hleft)]
    · exact ih

theorem client_said (lines : List Text) :
    d.sent++(client stray).said d lines = (lines.foldl (Dialogue.hear stray) d).sent := by
  rw [← client_reached]
  induction lines generalizing d with
  | nil => exact List.append_nil _
  | cons line lines ih =>
    rw [Machine.said, Machine.reached]
    split
    · exact List.append_nil _
    · rename_i hgoing
      rw [Bool.not_eq_true] at hgoing
      rw [← List.append_assoc, ← hear_sent (going_iff.mp hgoing)]
      exact ih

theorem hear_coded (stray' : Text → ℕ → UInt8) (h : Coded line) :
    d.hear stray line = d.hear stray' line := by
  have hmore : continues stray d.mode line = continues stray' d.mode line := by
    cases d.mode <;> simp only [continues, isListStart, getCode_coded stray h stray']
  rw [Dialogue.hear, Dialogue.hear, hmore]

/-- What is past the end of the lines makes no difference. -/
theorem dialogue_coded {typed lines : List Text} (stray' : Text → ℕ → UInt8)
    (h : ∀ line ∈ lines, Coded line) :
    dialogue stray typed lines = dialogue stray' typed lines :=
  List.foldl_ext _ _ _ fun _ line hline => hear_coded stray' (h line hline)

end Dialogues

section Honest
variable {stray : Text → ℕ → UInt8} {typed lines : List Text} {d : Dialogue} {line : Text}

def asSent (lines : List Text) : Text := lines.flatMap fun line => transmitted (line++[newline])

/-- The client shows lines of the server and sends lines of its user, all in order. -/
structure Honest (typed lines : List Text) (d : Dialogue) : Prop where
  shown : d.terminal.printed <+: lines
  all : d.mode ≠ .left → d.terminal.printed = lines
  asked : ∃ k, d.sent = asSent ((typed++[[]]).take k) ∧ d.terminal.input = typed.drop k ∧
    (d.mode ≠ .left → k ≤ typed.length)

theorem take_next {k : ℕ} (hk : k ≤ typed.length) :
    (typed++[[]]).take (k+1) = (typed++[[]]).take k++[(typed.drop k).headD []] := by
  induction typed generalizing k with
  | nil =>
    obtain rfl : k = 0 := by simpa using hk
    rfl
  | cons line typed ih =>
    cases k with
    | zero => rfl
    | succ k =>
      rw [List.cons_append, List.take_succ_cons, ih (by simpa using hk)]
      rfl

theorem honest_hear (h : Honest typed lines d) :
    Honest typed (lines++[line]) (d.hear stray line) := by
  obtain ⟨hshown,hall,k,hsent,hinput,hk⟩ := h
  by_cases hleft : d.mode = .left
  · rw [hear_left hleft]
    exact ⟨hshown.trans (List.prefix_append _ _),fun h => absurd hleft h,k,hsent,hinput,hk⟩
  have hprinted : d.terminal.printed++[line] = lines++[line] := by rw [hall hleft]
  cases hmore : continues stray d.mode line with
  | true =>
    rw [hear_more hleft hmore]
    exact ⟨hprinted ▸ List.prefix_refl _,fun _ => hprinted,k,hsent,hinput,fun _ => hk hleft⟩
  | false =>
    rw [hear_last hleft hmore]
    have hnext : nextLine (d.prints line).terminal = (typed.drop k).headD [] :=
      congrArg (fun input => input.headD []) hinput
    refine ⟨hprinted ▸ List.prefix_refl _,fun _ => hprinted,k+1,?_,?_,?_⟩
    · rw [take_next (hk hleft), asSent, List.flatMap_append, List.flatMap_singleton, ← hnext,
        ← asSent, ← hsent]
      rfl
    · rw [← List.tail_drop, ← hinput]
      rfl
    · rw [ask_mode, hnext]
      intro hgoing
      by_contra hlt
      have hdrop : typed.drop k = [] := List.drop_eq_nil_of_le (by omega)
      rw [hdrop] at hgoing
      exact hgoing rfl

variable (stray typed lines) in
theorem dialogue_honest : Honest typed lines (dialogue stray typed lines) := by
  induction lines using List.reverseRecOn with
  | nil => exact ⟨List.prefix_refl _,fun _ => rfl,0,rfl,rfl,fun _ => Nat.zero_le _⟩
  | append_singleton lines line ih =>
    rw [dialogue, List.foldl_append]
    exact honest_hear ih

end Honest

section Calls
variable {stray : Text → ℕ → UInt8} {n m : ℕ}

theorem asking_emits (response : Text) (c : Console) :
    Emits console (asking stray n (m+1) response) c (transmitted (nextLine c++[newline]))
      (if nextLine c = [] then .call .shutdown .ret else awaiting stray n m)
      ⟨c.input.tail,c.printed⟩ := by
  rw [asking_getline]
  have hread : console .getline c = (.ok (nextLine c),⟨c.input.tail,c.printed⟩) := rfl
  apply Emits.other hread
  by_cases hline : nextLine c = []
  · rw [if_pos hline, if_pos hline, hline]
    exact emits_sends (sends_attempt (sends_last (sendString_sends _) rfl) _)
  · rw [if_neg hline, if_neg hline]
    exact emits_sends (asking_sends stray n m _)

end Calls

/-- The client where it expects a line of this kind, with turns left for `j` of them. -/
inductive Expects (stray : Text → ℕ → UInt8) (n j : ℕ) : Mode → ClientProgram Unit → Prop
  | greeting (hj : j < n) : Expects stray n j .greeting (runClient stray n)
  | answer {m : ℕ} (hj : j < n) (hm : j < m) : Expects stray n j .answer (awaiting stray n m)
  | item {m k : ℕ} {first item : Text} (hj : j < n) (hm : j < m) (hk : j < k)
      (hitem : getCode stray item ≠ idListEnd) :
      Expects stray n j .item (listing stray n m first k item)
  | left : Expects stray n j .left (.call .shutdown .ret)

section Expects
variable {stray : Text → ℕ → UInt8} {n m j : ℕ} {d : Dialogue} {line : Text}

theorem expects_ask (hgoing : d.mode ≠ .left) (hlast : continues stray d.mode line = false)
    (hj : j < n) (hm : j+1 < m) (response : Text) :
    ∃ p, Emits console (.call (.other (.print line)) fun _ => asking stray n m response) d.terminal
        ((client stray).answer d line) p (d.hear stray line).terminal ∧
      Expects stray n j (d.hear stray line).mode p := by
  obtain ⟨m,rfl⟩ : ∃ i, m = i+1 := ⟨m-1,by omega⟩
  have hprint : console (.print line) d.terminal = (.ok (),(d.prints line).terminal) := rfl
  have hanswer : (client stray).answer d line =
      transmitted (nextLine (d.prints line).terminal++[newline]) := by
    simp only [client, hlast, Bool.false_eq_true, if_false]
    rfl
  rw [hanswer, hear_last hgoing hlast]
  refine ⟨_,.other hprint (asking_emits response _),?_⟩
  rw [ask_mode]
  split
  · exact .left
  · exact .answer hj (by omega)

theorem expects_more {p : ClientProgram Unit} (hgoing : d.mode ≠ .left)
    (hmore : continues stray d.mode line = true) (hp : Expects stray n j .item p) :
    Emits console (.call (.other (.print line)) fun _ => p) d.terminal
        ((client stray).answer d line) p (d.hear stray line).terminal ∧
      Expects stray n j (d.hear stray line).mode p := by
  have hprint : console (.print line) d.terminal = (.ok (),(d.prints line).terminal) := rfl
  have hanswer : (client stray).answer d line = [] := by simp only [client, hmore, if_true]
  rw [hanswer, hear_more hgoing hmore]
  exact ⟨.other hprint (.done _ _),hp⟩

theorem expects_serves {p : ClientProgram Unit} (h : Expects stray n (j+1) d.mode p)
    (hgoing : d.mode ≠ .left) (hline : IsLine line) (hlen : line.length < n) :
    ∃ q, Takes p line q ∧ ∃ p', Emits console q d.terminal ((client stray).answer d line) p'
        (d.hear stray line).terminal ∧ Expects stray n j (d.hear stray line).mode p' := by
  generalize hmode : d.mode = mode at h
  cases h with
  | greeting hj =>
    have hlast : continues stray d.mode line = false := by rw [hmode]; rfl
    exact ⟨_,runClient_takes hline hlen,expects_ask hgoing hlast (by omega) hj []⟩
  | answer hj hm =>
    refine ⟨_,awaiting_takes hline hlen,?_⟩
    cases hlist : isListStart stray line with
    | true =>
      have hmore : continues stray d.mode line = true := by rw [hmode]; exact hlist
      exact ⟨_,expects_more hgoing hmore (.item (by omega) (by omega) (by omega) (getCode_nil stray))⟩
    | false =>
      have hlast : continues stray d.mode line = false := by rw [hmode]; exact hlist
      exact expects_ask hgoing hlast (by omega) hm line
  | @item m k first item hj hm hk hitem =>
    obtain ⟨k,rfl⟩ : ∃ i, k = i+2 := ⟨k-2,by omega⟩
    refine ⟨_,listing_takes hitem hline hlen,?_⟩
    by_cases hend : getCode stray line = idListEnd
    · have hlast : continues stray d.mode line = false := by
        rw [hmode]
        exact decide_eq_false (not_not.mpr hend)
      rw [listing_end hend]
      exact expects_ask hgoing hlast (by omega) hm first
    · have hmore : continues stray d.mode line = true := by
        rw [hmode]
        exact decide_eq_true hend
      exact ⟨_,expects_more hgoing hmore (.item (by omega) (by omega) (by omega) hend)⟩
  | left => exact absurd hmode hgoing

theorem expects_waiting {p : ClientProgram Unit} (h : Expects stray n (j+1) d.mode p)
    (hgoing : d.mode ≠ .left) (hn : 1 < n) : Waiting p := by
  have hline : IsLine [newline] := ⟨[],by simp,rfl⟩
  obtain ⟨q,htakes,-⟩ := expects_serves h hgoing hline hn
  exact takes_waiting htakes (List.cons_ne_nil _ _)

end Expects

variable (stray : Text → ℕ → UInt8) {n : ℕ}

def conduct (bound : ℕ) (hn : bound < n) (hpos : 0 < bound) :
    Conduct console Unit Dialogue bound where
  code := lineCode bound
  machine := client stray
  state := Dialogue.terminal
  able _ _ := True
  ready j d p := Expects stray n j d.mode p
  leaves := by
    rintro j d p h hleft
    rw [of_decide_eq_true hleft] at h
    cases h with
    | left => exact .shutdown rfl
  waits := by
    rintro j d p h hgoing
    exact expects_waiting h (going_iff.mp hgoing) (by omega)
  serves := by
    rintro j d p line h hgoing ⟨hline,hlen⟩
    have hshort : line.length < n := hlen.trans_lt hn
    obtain ⟨q,htakes,hserves⟩ := expects_serves h (going_iff.mp hgoing) hline hshort
    exact ⟨q,htakes,fun _ => hserves⟩

def received (u : Open terminal Unit Console) : List Text := (splitLines u.stream).1

/-- The client has shown what has come and sent what it was asked for, and
waits for more or has returned. -/
structure Shown (typed : List Text) (u : Open terminal Unit Console) : Prop where
  sent : u.sent = (dialogue stray typed (received u)).sent
  terminal : u.here.state = (dialogue stray typed (received u)).terminal
  returned : (dialogue stray typed (received u)).mode = .left → u.here.program = .ret ()
  waits : (dialogue stray typed (received u)).mode ≠ .left →
    Waiting u.here.program ∧ u.inbox = []

variable {stray}

theorem console_prints (op : ClientOp) (c : Console) : c.printed <+: (console op c).2.printed := by
  cases op with
  | getline => exact List.prefix_refl _
  | print s => exact List.prefix_append _ _

theorem settled_shown {typed : List Text} {bound : ℕ} (hn : bound < n) (hpos : 0 < bound)
    {u : Open terminal Unit Console}
    (h : Settled (conduct stray bound hn hpos) (connecting typed) [] (received u) u) :
    Shown stray typed u := by
  have hreached : (client stray).reached (connecting typed) (received u) =
      dialogue stray typed (received u) := client_reached _
  have hsaid : (connecting typed).sent++(client stray).said (connecting typed) (received u) =
      (dialogue stray typed (received u)).sent := client_said _
  constructor
  · rw [h.sent]
    exact hsaid
  · rw [h.state]
    exact congrArg Dialogue.terminal hreached
  · intro hleft
    rw [← hreached] at hleft
    obtain ⟨_,hprogram⟩ := h.returned (decide_eq_true hleft)
    exact hprogram
  · intro hgoing
    rw [← hreached] at hgoing
    exact h.waits (going_iff.mpr hgoing)

theorem shown_coded {typed : List Text} {u : Open terminal Unit Console}
    (stray' : Text → ℕ → UInt8) (h : ∀ line ∈ received u, Coded line) (hu : Shown stray typed u) :
    Shown stray' typed u := by
  have hdialogue : dialogue stray' typed (received u) = dialogue stray typed (received u) :=
    dialogue_coded stray h
  obtain ⟨hsent,hterminal,hreturned,hwaits⟩ := hu
  constructor
  · rw [hdialogue, hsent]
  · rw [hdialogue, hterminal]
  · rwa [hdialogue]
  · rwa [hdialogue]

/-- Whatever a server sends and whenever, as long as its lines have room for a
code, the client shows complete lines of it in order and sends lines of its user
in order, each one behind an answer. When it has no step left it has shown all
that came before it left. -/
theorem any_server_shown (stray : Text → ℕ → UInt8) (typed : List Text)
    {u : Open terminal Unit Console}
    (h : Relation.ReflTransGen (Moves console) (opened (runClient stray n) ⟨typed,[]⟩) u)
    (hturns : u.stream.length+1 < n) (hcoded : ∀ line ∈ received u, Coded line) :
    (u.here.state.printed <+: received u ∧ u.sent <+: asSent (typed++[[]])) ∧
    (u.sent <+: (dialogue noStray typed (received u)).sent ∧
      (Still console u → Shown noStray typed u)) ∧
    (¬ ∃ run : ℕ → Open terminal Unit Console, run 0 = u ∧
      ∀ k, Own console (run k) (run (k+1))) ∧
    ∃ v, Relation.ReflTransGen (Own console) u v ∧ v.stream = u.stream ∧
      Shown noStray typed v := by
  have hpos := Nat.succ_pos u.stream.length
  have hready : (conduct stray (u.stream.length+1) hturns hpos).ready (u.stream.length+1)
      (connecting typed) (runClient stray n) := .greeting hturns
  have hcut : Cut (lineCode (u.stream.length+1)) u.stream (received u) (splitLines u.stream).2 :=
    cut_lines (Nat.le_succ _)
  obtain ⟨hsent,hstill,hfinite,v,hv,hstream,hsettled⟩ := open_answers
    (conduct stray (u.stream.length+1) hturns hpos) (.done _ _) hready h (Nat.lt_succ_self _)
    (fun _ _ _ _ _ _ _ => trivial) hcut
  have hsaid : (connecting typed).sent++(client stray).said (connecting typed) (received u) =
      (dialogue stray typed (received u)).sent := client_said _
  have hlines : received v = received u := by rw [received, hstream, received]
  have hshown : Shown stray typed v := settled_shown hturns hpos (by rw [hlines]; exact hsettled)
  have hhonest := dialogue_honest stray typed (received u)
  have hdialogue : u.sent <+: (dialogue stray typed (received u)).sent := hsaid ▸ hsent
  have hprinted : u.here.state.printed <+: v.here.state.printed :=
    own_extends Console.printed console_prints hv
  have hnul : dialogue stray typed (received u) = dialogue noStray typed (received u) :=
    dialogue_coded noStray hcoded
  refine ⟨⟨?_,?_⟩,⟨hnul ▸ hdialogue,fun hu => ?_⟩,hfinite,v,hv,hstream,?_⟩
  · rw [hshown.terminal, hlines] at hprinted
    exact hprinted.trans hhonest.shown
  · obtain ⟨k,hasked,-,-⟩ := hhonest.asked
    rw [hasked] at hdialogue
    apply hdialogue.trans
    rw [asSent, asSent]
    exact List.IsPrefix.flatMap (List.take_prefix _ _) _
  · exact shown_coded noStray hcoded (settled_shown hturns hpos (hstill hu))
  · exact shown_coded noStray (hlines ▸ hcoded) hshown

theorem any_server_shown_list : ∃ n v,
    Relation.ReflTransGen (Moves console)
      (opened (runClient (fun _ _ => 7) n) ⟨[text "USER a",text "LIST",text "QUIT"],[]⟩) v ∧
    v.stream = text "220 hello\n150 "++text "begin\nd\n226 end\n22" ∧
    v.sent = text "USER a\nLIST\n" ∧ v.here.state.input = [text "QUIT"] ∧
    v.here.state.printed = [text "220 hello\n",text "150 begin\n",text "d\n",text "226 end\n"] ∧
    Waiting v.here.program ∧ v.inbox = [] := by
  let typed : List Text := [text "USER a",text "LIST",text "QUIT"]
  let first : Text := text "220 hello\n150 "
  let second : Text := text "begin\nd\n226 end\n22"
  have hrun := arrives_run console (runClient (fun _ _ => 7) 50) ⟨typed,[]⟩ first second
  obtain ⟨-,-,-,v,hv,hstream,hshown⟩ :=
    any_server_shown (fun _ _ => 7) typed hrun (by decide) (by decide)
  have hlines : received v =
      [text "220 hello\n",text "150 begin\n",text "d\n",text "226 end\n"] := by
    rw [received, hstream]
    decide
  have hdialogue : dialogue noStray typed (received v) = ⟨.answer,⟨[text "QUIT"],
      [text "220 hello\n",text "150 begin\n",text "d\n",text "226 end\n"]⟩,
      text "USER a\nLIST\n"⟩ := by
    rw [hlines]
    rfl
  obtain ⟨hsent,hterminal,-,hwaits⟩ := hshown
  rw [hdialogue] at hsent hterminal hwaits
  refine ⟨50,v,hrun.trans (own_moves hv),hstream,hsent,?_,?_,hwaits (by decide)⟩
  · rw [hterminal]
  · rw [hterminal]

end Workshop.FtpAnyServer
