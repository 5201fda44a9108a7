import Workshop.FtpServer

/-!
# Contracts of a session

One rule for each function of a session. They hold for every contract that
allows the calls a command makes, so what differs from one property to the
next is the view of these calls.
-/

set_option autoImplicit false

namespace Workshop.FtpContract
open Workshop.CMemory Workshop.InteractiveProgram
open Workshop.FtpConfig Workshop.FtpCommand Workshop.FtpServer

def Serving (cmd : Command) : ServerOp → Prop
  | .sendString _ => True
  | .addDirectory d => cmd = .mkd d
  | .removeDirectory d => cmd = .rmd d
  | .directoriesSize => cmd = .list
  | .getList => cmd = .list
  | _ => False

section Answers
variable {L : Type} {c : Contract server L} {l : L} (cfg : Config)

/-- Why answering a command can stop, where `c` tells which answers to expect. -/
inductive Reason (c : Contract server L) (l : L) (cfg : Config) (cmd : Command) : Halt → Prop where
  | refused (t : Text) (h : c.rely l (.sendString t) false) : Reason c l cfg cmd .thrown
  | missing (h : ¬ cfg.DefinesAll) : Reason c l cfg cmd (.fault .endIterator)
  | nameless (h : cmd = .mkd [] ∨ cmd = .rmd [] ∧ c.rely l (.removeDirectory []) true) :
      Reason c l cfg cmd (.fault .emptyText)

def Quiet (c : Contract server L) (l : L) (cmd : Command) : Prop :=
  ∀ op, Serving cmd op → c.may l op ∧ ∀ r, c.rely l op r → c.view l op r = l

variable {cmd : Command} (hq : Quiet c l cmd)
include hq

theorem keeps_sendString (t : Text) :
    Keeps c (fun _ l' => l' = l) (fun e l' => l' = l ∧ Reason c l cfg cmd e) (sendString t) l := by
  have hserve := hq (.sendString t) trivial
  constructor
  · exact hserve.1
  · intro returned hrely
    have hview := hserve.2 returned hrely
    cases returned with
    | true => exact hview
    | false => exact ⟨hview,.refused t hrely⟩

theorem keeps_sendMessage {id message : Text} (hkey : message ∈ messageKeys) (cli : Client) :
    Keeps c (fun cli' l' => l' = l ∧ cli' = cli) (fun e l' => l' = l ∧ Reason c l cfg cmd e)
      (sendMessage cfg id message cli) l := by
  rw [sendMessage]
  cases hf : formatCmd id message cfg with
  | error e =>
    obtain ⟨rfl,hmissing⟩ := formatCmd_error hf
    exact ⟨rfl,.missing fun hall => hmissing (hall message hkey)⟩
  | ok t =>
    apply keeps_bind
    apply keeps_bind
    apply keeps_mono _ (fun _ _ h => h) (keeps_sendString cfg hq t)
    intro _ l' hl
    exact ⟨hl,rfl⟩

theorem keeps_sendDirectory {id dirname message : Text} (hkey : message ∈ messageKeys)
    (hd : dirname = [] → cmd = .mkd [] ∨ cmd = .rmd [] ∧ c.rely l (.removeDirectory []) true)
    (cli : Client) :
    Keeps c (fun cli' l' => l' = l ∧ cli' = cli) (fun e l' => l' = l ∧ Reason c l cfg cmd e)
      (sendDirectory cfg id dirname message cli) l := by
  rw [sendDirectory]
  cases hf : formatCmdDir id dirname message cfg with
  | error e =>
    rcases formatCmdDir_error hf with ⟨rfl,hnil⟩ | ⟨rfl,hmissing⟩
    · exact ⟨rfl,.nameless (hd hnil)⟩
    · exact ⟨rfl,.missing fun hall => hmissing (hall message hkey)⟩
  | ok t =>
    apply keeps_bind
    apply keeps_bind
    apply keeps_mono _ (fun _ _ h => h) (keeps_sendString cfg hq t)
    intro _ l' hl
    exact ⟨hl,rfl⟩

theorem keeps_sendList (hlist : cmd = .list) :
    Keeps c (fun _ l' => l' = l) (fun e l' => l' = l ∧ Reason c l cfg cmd e) sendList l := by
  have hsize := hq .directoriesSize hlist
  have hget := hq .getList hlist
  constructor
  · exact hsize.1
  · intro size hrely
    rw [hsize.2 size hrely]
    dsimp only
    split
    · constructor
      · exact hget.1
      · intro list hrely
        rw [hget.2 list hrely]
        exact keeps_sendString cfg hq list
    · rfl

theorem keeps_plain (cli : Client) {plain : Command}
    (hplain : cli.logged = false ∨ usesDirectories plain = false) :
    Keeps c (fun cli' l' => l' = l ∧ ∃ r, plainReply cfg cli plain = .ok r ∧ cli' = r.after)
      (fun e l' => l' = l ∧ Reason c l cfg cmd e) (sendResponse cfg cli plain) l := by
  rw [sendResponse_plain cfg cli plain hplain]
  cases hr : plainReply cfg cli plain with
  | error e =>
    have he := plainReply_error hr
    subst he
    exact ⟨rfl,.missing (plainReply_missing hr)⟩
  | ok r =>
    apply keeps_bind
    apply keeps_mono _ (fun _ _ h => h) (keeps_sendMessage cfg hq (plainReply_key hr) r.after)
    intro cli' l' h
    exact ⟨h.1,r,rfl,h.2⟩

theorem keeps_response (cli : Client) :
    Keeps c (fun cli' l' => l' = l ∧ ∃ r, plainReply cfg cli cmd = .ok r ∧ cli' = r.after)
      (fun e l' => l' = l ∧ Reason c l cfg cmd e) (sendResponse cfg cli cmd) l := by
  by_cases hplain : cli.logged = false ∨ usesDirectories cmd = false
  · exact keeps_plain cfg hq cli hplain
  · obtain ⟨hl,hu⟩ := not_or.mp hplain
    rw [Bool.not_eq_false] at hl
    cases cmd with
    | list =>
      rw [sendResponse, listSendResponse, whenLogged, if_pos hl]
      apply keeps_bind
      apply keeps_mono _ (fun _ _ h => h) (keeps_sendMessage cfg hq (by simp [messageKeys]) cli)
      intro _ l1 h1
      rw [h1.1]
      apply keeps_bind
      apply keeps_mono _ (fun _ _ h => h) (keeps_sendList cfg hq rfl)
      intro _ l2 h2
      rw [h2]
      apply keeps_mono _ (fun _ _ h => h) (keeps_sendMessage cfg hq (by simp [messageKeys]) cli)
      intro cli' l' h
      exact ⟨h.1,_,rfl,h.2⟩
    | mkd dirname =>
      rw [sendResponse, mkdSendResponse, whenLogged, if_pos hl]
      have hadd := hq (.addDirectory dirname) rfl
      constructor
      · exact hadd.1
      · intro added hrely
        rw [hadd.2 added hrely]
        have hdone : ∀ (cli' : Client) (l' : L), l' = l ∧ cli' = cli →
            l' = l ∧ ∃ r, plainReply cfg cli (.mkd dirname) = .ok r ∧ cli' = r.after :=
          fun cli' l' h => ⟨h.1,_,rfl,h.2⟩
        apply keeps_mono hdone (fun _ _ h => h)
        cases added with
        | true =>
          apply keeps_sendDirectory cfg hq (by simp [messageKeys])
          intro hd
          exact .inl (by rw [hd])
        | false => exact keeps_sendMessage cfg hq (by simp [messageKeys]) cli
    | rmd dirname =>
      rw [sendResponse, rmdSendResponse, whenLogged, if_pos hl]
      have hremove := hq (.removeDirectory dirname) rfl
      constructor
      · exact hremove.1
      · intro removed hrely
        rw [hremove.2 removed hrely]
        have hdone : ∀ (cli' : Client) (l' : L), l' = l ∧ cli' = cli →
            l' = l ∧ ∃ r, plainReply cfg cli (.rmd dirname) = .ok r ∧ cli' = r.after :=
          fun cli' l' h => ⟨h.1,_,rfl,h.2⟩
        apply keeps_mono hdone (fun _ _ h => h)
        cases removed with
        | true =>
          apply keeps_sendDirectory cfg hq (by simp [messageKeys])
          intro hd
          exact .inr ⟨by rw [hd],hd ▸ hrely⟩
        | false => exact keeps_sendMessage cfg hq (by simp [messageKeys]) cli
    | _ => exact absurd rfl hu

theorem keeps_sendHello :
    Keeps c (fun _ l' => l' = l) (fun e l' => l' = l ∧ Reason c l cfg cmd e) (sendHello cfg) l := by
  rw [sendHello]
  cases hf : formatCmd idNewClient msgNewClient cfg with
  | error e =>
    obtain ⟨rfl,hmissing⟩ := formatCmd_error hf
    exact ⟨rfl,.missing fun hall => hmissing (hall msgNewClient (by simp [messageKeys]))⟩
  | ok t =>
    apply keeps_bind
    exact keeps_sendString cfg hq t

omit hq

theorem keeps_answer {query : Text} {cli : Client} (hc : createCommand query = .ok cmd)
    (hnote : c.may l (.note (.received cli query)))
    (hq : Quiet c (c.view l (.note (.received cli query)) ()) cmd)
    (hdone : ∀ r, plainReply cfg cli cmd = .ok r →
      c.may (c.view l (.note (.received cli query)) ()) (.note (.handled r.after))) :
    Keeps c
      (fun cli' l' => ∃ r, plainReply cfg cli cmd = .ok r ∧ cli' = r.after ∧
        l' = c.view (c.view l (.note (.received cli query)) ()) (.note (.handled r.after)) ())
      (fun e l' => l' = c.view l (.note (.received cli query)) () ∧
        Reason c (c.view l (.note (.received cli query)) ()) cfg cmd e)
      (answerQuery cfg query cli) l := by
  constructor
  · exact hnote
  · intro _ _
    rw [respondQuery, hc]
    apply keeps_bind
    apply keeps_mono _ (fun _ _ h => h) (keeps_response cfg hq cli)
    intro cli' l' h
    obtain ⟨rfl,r,hr,rfl⟩ := h
    constructor
    · exact hdone r hr
    · intro _ _
      exact ⟨r,hr,rfl,rfl⟩

end Answers

section Sessions
variable {L : Type} {c : Contract server L} {cfg : Config}

/-- The rule for the loop of a session: what holds of the client record and
the view at the head of a turn. -/
theorem keeps_loop {J : Client → L → Prop} {R : Halt → L → Prop}
    (hread : ∀ cli l, J cli l → cli.quit = false → c.may l .receiveString)
    (hanswer : ∀ cli l q, J cli l → cli.quit = false → c.rely l .receiveString q → 1 < q.length →
      Keeps c J R (answerQuery cfg q cli) (c.view l .receiveString q))
    (hempty : ∀ cli l q, J cli l → cli.quit = false → c.rely l .receiveString q → q.length ≤ 1 →
      J { cli with quit := true } (c.view l .receiveString q))
    (hcut : ∀ cli l, J cli l → R .running l) (n : ℕ) (cli : Client) (l : L) (h : J cli l) :
    Keeps c (fun cli l => J cli l ∧ cli.quit = true) R
      (Program.iterate .running (serveQuery cfg) n cli) l := by
  apply keeps_iterate J _ hcut n cli l h
  intro cli l hJ
  rw [serveQuery]
  cases hquit : cli.quit with
  | true => exact ⟨hJ,hquit⟩
  | false =>
    constructor
    · exact hread cli l hJ hquit
    · intro q hq
      dsimp only
      split
      · apply keeps_bind
        apply keeps_mono _ (fun _ _ h => h) (hanswer cli l q hJ hquit hq (by assumption))
        intro cli' l' h
        exact h
      · exact hempty cli l q hJ hquit hq (by omega)

theorem keeps_session {J : Client → L → Prop} {Q : L → Prop} {R : Halt → L → Prop} {l : L}
    (hhello : Keeps c (fun _ l => J Client.new l) R (sendHello cfg) l) (n : ℕ)
    (hloop : ∀ l, J Client.new l → Keeps c (fun cli l => J cli l ∧ cli.quit = true) R
      (Program.iterate .running (serveQuery cfg) n Client.new) l)
    (hend : ∀ cli l, J cli l → cli.quit = true → Q l) (hthrown : ∀ l, R .thrown l → Q l) :
    Keeps c (fun _ l => Q l) R (respondClient cfg n) l := by
  apply keeps_attempt
  have hcatch : ∀ e l, R e l → Keeps c (fun _ l => Q l) R (catchException e) l := by
    intro e l h
    cases e with
    | thrown => exact hthrown l h
    | fault f => exact h
    | running => exact h
  apply keeps_bind
  apply keeps_mono _ hcatch hhello
  intro _ l1 h1
  apply keeps_bind
  apply keeps_mono _ hcatch (hloop l1 h1)
  intro cli l2 h2
  exact hend cli l2 h2.1 h2.2

end Sessions

end Workshop.FtpContract
