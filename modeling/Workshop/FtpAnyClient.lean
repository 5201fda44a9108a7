import Workshop.OpenConnection
import Workshop.FtpSession

/-!
# The server's thread of a client that sends anything

Nothing is known of the client but that it keeps the connection open. It may
send lines ahead of their answers, stop inside a line, or send what is no
command. The thread answers the complete lines in order, up to the first empty
one or `QUIT`, and what it has sent never depends on when the bytes arrive.
-/

set_option autoImplicit false

namespace Workshop.FtpAnyClient
open Workshop.CMemory Workshop.InteractiveProgram Workshop.ByteChannel Workshop.HalfDuplex
open Workshop.RunAhead Workshop.OpenConnection Workshop.FtpConfig Workshop.FtpCommand
open Workshop.FtpDirectories Workshop.FtpServer Workshop.FtpNetwork Workshop.FtpNames
open Workshop.FtpLockstep Workshop.FtpExchange Workshop.FtpSession

theorem line_free {l l' : Text} (hl : IsLine l) (hl' : IsLine l') (h : l <+: l') : l = l' := by
  obtain ⟨body,-,rfl⟩ := hl
  obtain ⟨body',hbody',rfl⟩ := hl'
  rcases List.prefix_concat_iff.mp h with heq | hle
  · exact heq
  · exact absurd (hle.subset (List.mem_append_right body (List.mem_singleton_self newline))) hbody'

theorem tail_unfinished {l t : Text} (hl : IsLine l) (ht : newline ∉ t) : ¬ l <+: t := by
  obtain ⟨body,-,rfl⟩ := hl
  intro hle
  exact ht (hle.subset (List.mem_append_right body (List.mem_singleton_self newline)))

def lineCode (bound : ℕ) : Code bound where
  word l := IsLine l ∧ l.length ≤ bound
  nonempty l hl := by
    obtain ⟨⟨body,-,rfl⟩,-⟩ := hl
    simp
  free l l' hl hl' h := line_free hl.1 hl'.1 h
  complete t ht := by
    by_cases hnl : newline ∈ t
    · obtain ⟨body,rest,hbody,rfl⟩ := first_newline hnl
      have hstart : body++[newline] <+: body++newline::rest := ⟨rest,by simp⟩
      exact .inl ⟨body++[newline],⟨⟨body,hbody,rfl⟩,hstart.length_le.trans ht.le⟩,hstart⟩
    · exact .inr ⟨[newline],⟨t,hnl,rfl⟩,by rw [List.length_append, List.length_singleton]; omega⟩

theorem cut_lines {bound : ℕ} {stream : Text} (h : stream.length ≤ bound) :
    Cut (lineCode bound) stream (splitLines stream).1 (splitLines stream).2 where
  words q hq := ⟨splitLines_lines stream q hq,(splitLines_length hq).trans h⟩
  join := splitLines_join stream
  unfinished _ hq := tail_unfinished hq.1 (splitLines_tail stream)

def queries (stream : Text) : List Text := (splitLines stream).1.map List.dropLast

variable {σ : Type}

def thread (E : Surroundings σ) (cfg : Config) : Machine (Talk σ) where
  after t query :=
    if 1 < query.length then answered E cfg t query.dropLast
    else { t with cli := { t.cli with quit := true } }
  answer t query :=
    if 1 < query.length then
      match createCommand query with
      | .ok cmd => (E.lines cfg t.cli cmd t.state).flatten
      | .error _ => []
    else []
  stopped t := t.cli.quit

section Thread
variable {E : Surroundings σ} {cfg : Config} {t : Talk σ} {line : Text}

theorem line_long : 1 < (line++[newline]).length ↔ line ≠ [] := by
  rw [List.length_append, List.length_singleton, ← List.length_pos_iff]
  omega

theorem thread_line (hne : line ≠ []) :
    (thread E cfg).after t (line++[newline]) = answered E cfg t line := by
  simp only [thread, if_pos (line_long.mpr hne), List.dropLast_concat]

theorem thread_answer (hne : line ≠ []) {cmd : Command}
    (hc : createCommand (line++[newline]) = .ok cmd) :
    (thread E cfg).answer t (line++[newline]) = (E.lines cfg t.cli cmd t.state).flatten := by
  simp only [thread, if_pos (line_long.mpr hne), hc]

theorem line_command (line : Text) : ∃ cmd, createCommand (line++[newline]) = .ok cmd :=
  create_total (by simp)

def Ending (line : Text) : Prop := line = [] ∨ quits line = true

structure Follows (E : Surroundings σ) (cfg : Config) (t : Talk σ) (lines : List Text)
    (t' : Talk σ) : Prop where
  said : t'.said = ((served lines).foldl (answered E cfg) t).said
  state : t'.state = ((served lines).foldl (answered E cfg) t).state
  quit : t'.cli.quit = true ↔ ∃ line ∈ lines, Ending line
  going : (∀ line ∈ lines, ¬ Ending line) → t' = lines.foldl (answered E cfg) t

end Thread

section Serving
variable {E : Surroundings σ} {cfg : Config} {P : σ → Prop} (hE : E.Named P) (hall : cfg.DefinesAll)
  (hvalues : ∀ key ∈ messageKeys, IsLine (cfg.value key)) {n : ℕ}
include hE hall hvalues

theorem thread_serves (m : ℕ) {t : Talk σ} (hcli : t.cli.quit = false) (hs : P t.state)
    {query : Text} (hquery : IsLine query) (hlen : query.length < n) :
    ∃ q, Takes (serverLoop cfg n (m+2) t.cli) query q ∧
      ((1 < query.length → Answerable E cfg t query.dropLast) →
        Emits (answering E.answers) q t.state ((thread E cfg).answer t query)
          (serverLoop cfg n (m+1) ((thread E cfg).after t query).cli)
          ((thread E cfg).after t query).state ∧ P ((thread E cfg).after t query).state) := by
  obtain ⟨line,hline,rfl⟩ := hquery
  by_cases hne : line = []
  · subst hne
    have hquit : serverLoop cfg n (m+1) ((thread E cfg).after t [newline]).cli = .ret () :=
      serverLoop_quit rfl
    refine ⟨_,serverLoop_empty hcli hlen,fun _ => ⟨?_,hs⟩⟩
    rw [List.nil_append, hquit]
    exact .done _ _
  · obtain ⟨cmd,hc⟩ := line_command line
    have hlong := line_long.mpr hne
    refine ⟨_,serverLoop_takes hcli (answered_line hline) hlen hlong,?_⟩
    intro hable
    have hanswer := hable hlong
    rw [List.dropLast_concat] at hanswer
    have hnames := answerable_names hanswer hline hc
    rw [thread_answer hne hc, thread_line hne]
    refine ⟨?_,answered_named cfg hE hc hnames hs⟩
    rw [answer_command E cfg hc]
    exact emits_answer hE hs hall hvalues n hc hnames (hanswer.whole cmd hc) _

def conduct (bound : ℕ) (hn : bound < n) : Conduct (answering E.answers) Unit (Talk σ) bound where
  code := lineCode bound
  machine := thread E cfg
  state := Talk.state
  able t query := 1 < query.length → Answerable E cfg t query.dropLast
  ready j t p := ∃ m, j < m ∧ p = serverLoop cfg n m t.cli ∧ P t.state
  leaves := by
    rintro j t p ⟨m,hm,rfl,-⟩ hquit
    obtain ⟨m,rfl⟩ : ∃ i, m = i+1 := ⟨m-1,by omega⟩
    rw [serverLoop_quit hquit]
    exact .ret ()
  waits := by
    rintro j t p ⟨m,hm,rfl,-⟩ hquit
    obtain ⟨m,rfl⟩ : ∃ i, m = i+1 := ⟨m-1,by omega⟩
    exact serverLoop_waiting hquit (Nat.zero_lt_of_lt hn)
  serves := by
    rintro j t p query ⟨m,hm,rfl,hs⟩ hquit ⟨hquery,hlen⟩
    obtain ⟨m,rfl⟩ : ∃ i, m = i+2 := ⟨m-2,by omega⟩
    have hshort : query.length < n := hlen.trans_lt hn
    obtain ⟨q,htakes,hanswer⟩ := thread_serves hE hall hvalues m hquit hs hquery hshort
    refine ⟨q,htakes,?_⟩
    intro hable
    obtain ⟨hemits,hs'⟩ := hanswer hable
    exact ⟨_,hemits,m+1,by omega,rfl,hs'⟩

end Serving

/-- The thread has answered what has come, and waits for more or has returned. -/
structure Served (E : Surroundings σ) (cfg : Config) (s0 : σ) (u : Open server Unit σ) : Prop where
  sent : u.sent = (talk E cfg s0 (served (queries u.stream))).said.flatten
  state : u.here.state = (talk E cfg s0 (served (queries u.stream))).state
  returned : (∃ line ∈ queries u.stream, Ending line) → u.here.program = .ret ()
  waits : (∀ line ∈ queries u.stream, ¬ Ending line) → Waiting u.here.program ∧ u.inbox = []

section Client
variable {E : Surroundings σ} {cfg : Config} {P : σ → Prop} (hE : E.Named P) (hall : cfg.DefinesAll)
  (hvalues : ∀ key ∈ messageKeys, IsLine (cfg.value key)) {n bound : ℕ} (hn : bound < n) {s0 : σ}
include hE hall hvalues

end Client

end Workshop.FtpAnyClient
