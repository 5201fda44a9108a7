import Workshop.ByteChannel
import Workshop.FtpServer

/-!
# Protocol and sockets of the file server

The protocol sends a text with one `Socket::send` and receives one byte at a
time until a line end arrives. A session is connected to a socket by running
its two text calls through these functions. The length handed to
`Socket::send` is an `int`.
-/

set_option autoImplicit false

namespace Workshop.FtpNetwork
open Workshop.CMemory Workshop.InteractiveProgram Workshop.ByteChannel
open Workshop.FtpConfig Workshop.FtpCommand Workshop.FtpServer

variable {I : Interface}

/-- `Socket::send`. Only a failing system call throws. The source sends with flags 0
and does not handle `SIGPIPE`, so a failing `send` can also kill the process. Here
such a run is one that is cut off at the call. -/
def socketSend (len : ℤ) (buf : Text) : Program (net I) Halt Unit :=
  sendLoop (buf.take len.toNat) >>= fun
    | .failed => .fail .thrown
    | _ => .ret ()

/-- `Socket::receive`. Its throwing branch needs a negative count, which the
loop never has: the end of the stream and a failure are answered with -1. -/
def socketReceive {n : ℕ} (len : ℕ) (buf : Vector UInt8 n) :
    Program (net I) Halt (ℤ × Vector UInt8 n) :=
  recvLoop len buf 0 >>= fun r => if r.1 > 0 then .ret (r.1,r.2) else .ret (-1,r.2)

def protocolSendString (cmd : Text) : Program (net I) Halt Unit :=
  socketSend (narrow cmd.length) cmd

/-- One turn of `while (aux != '\n')` on the text so far and `aux`. -/
def receiveStep (s : Text × Vector UInt8 1) :
    Program (net I) Halt ((Text × Vector UInt8 1) ⊕ Text) :=
  if s.2[0] = newline then .ret (.inr s.1)
  else socketReceive 1 s.2 >>= fun r => .ret (.inl (s.1++[r.2[0]],r.2))

def protocolReceiveString (n : ℕ) : Program (net I) Halt Text :=
  Program.iterate .running receiveStep n ([],#v[0])

def overSocket (n : ℕ) : (op : ServerOp) → Program (net server) Halt (ServerRes op)
  | .receiveString => protocolReceiveString n
  | .sendString cmd =>
    Program.attempt (fun e => if e = .thrown then .ret false else .fail e)
      (protocolSendString cmd >>= fun _ => .ret true)
  | .addDirectory d => .call (.other (.addDirectory d)) .ret
  | .removeDirectory d => .call (.other (.removeDirectory d)) .ret
  | .directoriesSize => .call (.other .directoriesSize) .ret
  | .getList => .call (.other .getList) .ret
  | .note e => .call (.other (.note e)) .ret

/-- What a text of this length leaves on the wire. -/
def transmitted (cmd : Text) : Text := cmd.take (narrow cmd.length).toNat

theorem transmitted_small {cmd : Text} (h : cmd.length < 2^31) : transmitted cmd = cmd := by
  rw [transmitted, narrow_small h]
  simp

theorem transmitted_wraps {cmd : Text} (h : 2^31 ≤ cmd.length) (h' : cmd.length < 2^32) :
    transmitted cmd = [] := by
  have hzero : (narrow cmd.length).toNat = 0 := by
    rw [narrow_wraps h h']
    omega
  rw [transmitted, hzero, List.take_zero]

theorem transmitted_le (cmd : Text) : (transmitted cmd).length ≤ cmd.length := by
  rw [transmitted, List.length_take]
  omega

theorem transmitted_whole {cmd : Text} (h : (transmitted cmd).length = cmd.length) :
    cmd.length < 2^31 := by
  have hlt := narrow_lt cmd.length
  rw [transmitted, List.length_take] at h
  omega

def splitLines : Text → List Text × Text
  | [] => ([],[])
  | c::cs =>
    if c = newline then ([newline]::(splitLines cs).1,(splitLines cs).2)
    else match (splitLines cs).1 with
      | [] => ([],c::(splitLines cs).2)
      | line::lines => ((c::line)::lines,(splitLines cs).2)

theorem splitLines_line {body : Text} (h : newline ∉ body) (rest : Text) :
    splitLines (body++newline::rest) =
      ((body++[newline])::(splitLines rest).1,(splitLines rest).2) := by
  induction body with
  | nil => rw [List.nil_append, splitLines, if_pos rfl, List.nil_append]
  | cons c body ih =>
    have hc : c ≠ newline := fun hc => h (by simp [hc])
    rw [List.cons_append, splitLines, if_neg hc, ih (fun hb => h (List.mem_cons_of_mem _ hb))]
    rfl

theorem splitLines_none {t : Text} (h : newline ∉ t) : splitLines t = ([],t) := by
  induction t with
  | nil => rfl
  | cons c cs ih =>
    have hc : c ≠ newline := fun hc => h (by simp [hc])
    rw [splitLines, if_neg hc, ih (fun hb => h (List.mem_cons_of_mem _ hb))]

theorem first_newline {t : Text} (h : newline ∈ t) :
    ∃ body rest, newline ∉ body ∧ t = body++newline::rest := by
  obtain ⟨body,rest,ht,hb⟩ := List.eq_append_cons_of_mem h
  exact ⟨body,rest,hb,ht⟩

theorem lines_induction {P : Text → Prop} (hnone : ∀ t, newline ∉ t → P t)
    (hline : ∀ body rest, newline ∉ body → P rest → P (body++newline::rest)) (t : Text) : P t := by
  induction hl : t.length using Nat.strong_induction_on generalizing t with
  | _ m ih =>
    by_cases h : newline ∈ t
    · obtain ⟨body,rest,hbody,rfl⟩ := first_newline h
      rw [List.length_append, List.length_cons] at hl
      exact hline body rest hbody (ih rest.length (by omega) rest rfl)
    · exact hnone t h

theorem splitLines_join (t : Text) : (splitLines t).1.flatten++(splitLines t).2 = t := by
  induction t using lines_induction with
  | hnone t h => simp [splitLines_none h]
  | hline body rest hbody ih =>
    rw [splitLines_line hbody, List.flatten_cons, List.append_assoc, ih]
    simp

theorem splitLines_lines (t : Text) : ∀ q ∈ (splitLines t).1, IsLine q := by
  induction t using lines_induction with
  | hnone t h => simp [splitLines_none h]
  | hline body rest hbody ih =>
    rw [splitLines_line hbody]
    intro q hq
    rcases List.mem_cons.mp hq with rfl | hq
    · exact ⟨body,hbody,rfl⟩
    · exact ih q hq

theorem splitLines_tail (t : Text) : newline ∉ (splitLines t).2 := by
  induction t using lines_induction with
  | hnone t h => rwa [splitLines_none h]
  | hline body rest hbody ih => rwa [splitLines_line hbody]

theorem splitLines_count (t : Text) : (splitLines t).1.length ≤ t.length := by
  induction t using lines_induction with
  | hnone t h => simp [splitLines_none h]
  | hline body rest hbody ih =>
    rw [splitLines_line hbody]
    simp only [List.length_append, List.length_cons]
    omega

theorem splitLines_length {t q : Text} (hq : q ∈ (splitLines t).1) : q.length ≤ t.length := by
  have hjoin := congrArg List.length (splitLines_join t)
  have hle := (List.sublist_flatten_of_mem hq).length_le
  rw [List.length_append] at hjoin
  omega

section Transfers
variable {σ : Type} (d : Delivery) (H : Handler I Halt σ)

theorem overwrite_one (aux : Vector UInt8 1) (b : UInt8) : overwrite aux 0 [b] = #v[b] := by
  apply Vector.ext
  intro i hi
  obtain rfl : i = 0 := by omega
  simp [overwrite_get]

theorem run_recvLoop_byte (aux : Vector UInt8 1) (b : UInt8) (rest out : Text) (k : ℕ) (s : σ) :
    run (wired d H) (recvLoop 1 aux 0) (⟨b::rest,out,k⟩,s) =
      (.ok (1,#v[b]),⟨rest,out,k+1⟩,s) := by
  have hsize : pieceSize d ⟨b::rest,out,k⟩ 1 = 1 := by
    simp only [pieceSize, List.length_cons]
    omega
  have hans : recvAnswer d ⟨b::rest,out,k⟩ 1 = some ⟨[b],by simp⟩ := by
    simp [recvAnswer, hsize]
  rw [recvLoop, if_pos Nat.one_pos, run_call, wired, andThen_ok]
  simp only [Nat.sub_zero, hans, hsize, storeAll_fits aux 0 [b] (by simp), overwrite_one]
  rw [recvLoop, if_neg (by simp)]
  rfl

theorem run_receiveStep_byte (str rest out : Text) (aux : Vector UInt8 1) (haux : aux[0] ≠ newline)
    (b : UInt8) (k : ℕ) (s : σ) :
    run (wired d H) (receiveStep (str,aux)) (⟨b::rest,out,k⟩,s) =
      (.ok (.inl (str++[b],#v[b])),⟨rest,out,k+1⟩,s) := by
  rw [receiveStep, if_neg haux, run_bind, socketReceive, run_bind, run_recvLoop_byte]
  simp

theorem run_receiveStep_end (str out : Text) (aux : Vector UInt8 1) (haux : aux[0] ≠ newline)
    (k : ℕ) (s : σ) :
    ∃ k', run (wired d H) (receiveStep (str,aux)) (⟨[],out,k⟩,s) =
      (.ok (.inl (str++[aux[0]],aux)),⟨[],out,k'⟩,s) := by
  obtain ⟨k',hk⟩ := run_recvLoop d H 1 aux 0 ⟨[],out,k⟩ s (by simp)
  refine ⟨k',?_⟩
  rw [receiveStep, if_neg haux, run_bind, socketReceive, run_bind, hk]
  simp [overwrite_nil]

theorem run_receive_body (body rest out : Text) (hbody : newline ∉ body) (n : ℕ) (str : Text)
    (aux : Vector UInt8 1) (haux : aux[0] ≠ newline) (k : ℕ) (s : σ) :
    ∃ aux', aux'[0] ≠ newline ∧
      run (wired d H) (Program.iterate .running receiveStep (body.length+n) (str,aux))
        (⟨body++rest,out,k⟩,s) =
      run (wired d H) (Program.iterate .running receiveStep n (str++body,aux'))
        (⟨rest,out,k+body.length⟩,s) := by
  induction body generalizing str aux k with
  | nil => exact ⟨aux,haux,by simp⟩
  | cons b body ih =>
    have hb : b ≠ newline := fun hb => hbody (by simp [hb])
    obtain ⟨aux',haux',hrun⟩ := ih (fun h => hbody (List.mem_cons_of_mem _ h)) (str++[b])
      #v[b] hb (k+1)
    refine ⟨aux',haux',?_⟩
    have hcalls : k+1+body.length = k+(body.length+1) := by omega
    rw [List.length_cons, Nat.add_right_comm, List.cons_append, Program.iterate, run_bind,
      run_receiveStep_byte d H str (body++rest) out aux haux b k s, andThen_ok]
    rw [hcalls] at hrun
    simpa using hrun

theorem aux_start : (#v[0] : Vector UInt8 1)[0] ≠ newline := by decide

theorem run_receive_line (body rest out : Text) (hbody : newline ∉ body) (n : ℕ)
    (hn : body.length+1 < n) (k : ℕ) (s : σ) :
    run (wired d H) (protocolReceiveString n) (⟨body++newline::rest,out,k⟩,s) =
      (.ok (body++[newline]),⟨rest,out,k+body.length+1⟩,s) := by
  obtain ⟨m,rfl⟩ : ∃ m, n = body.length+(m+2) := ⟨n-body.length-2,by omega⟩
  obtain ⟨aux',haux',hrun⟩ := run_receive_body d H body (newline::rest) out hbody (m+2) []
    #v[0] aux_start k s
  rw [protocolReceiveString, hrun, List.nil_append, Program.iterate, run_bind,
    run_receiveStep_byte d H body rest out aux' haux' newline, andThen_ok]
  simp [Program.iterate, receiveStep]

theorem run_receive_never (str out : Text) (aux : Vector UInt8 1) (haux : aux[0] ≠ newline)
    (n k : ℕ) (s : σ) :
    (run (wired d H) (Program.iterate .running receiveStep n (str,aux)) (⟨[],out,k⟩,s)).1 =
      .error .running := by
  induction n generalizing str k with
  | zero => rfl
  | succ n ih =>
    obtain ⟨k1,hk1⟩ := run_receiveStep_end d H str out aux haux k s
    rw [Program.iterate, run_bind, hk1, andThen_ok]
    exact ih _ k1

theorem run_receive_cut (body rest out : Text) (hbody : newline ∉ body) (n : ℕ)
    (hn : n ≤ body.length) (str : Text) (aux : Vector UInt8 1) (haux : aux[0] ≠ newline) (k : ℕ)
    (s : σ) :
    (run (wired d H) (Program.iterate .running receiveStep n (str,aux))
      (⟨body++rest,out,k⟩,s)).1 = .error .running := by
  have htake : body.take n++(body.drop n++rest) = body++rest := by
    rw [← List.append_assoc, List.take_append_drop]
  have hlen : (body.take n).length = n := by
    rw [List.length_take]
    omega
  obtain ⟨aux',_,hrun⟩ := run_receive_body d H (body.take n) (body.drop n++rest) out
    (fun h => hbody (List.mem_of_mem_take h)) 0 str aux haux k s
  rw [hlen, htake, Nat.add_zero] at hrun
  rw [hrun]
  rfl

theorem run_receive_unended (stream out : Text) (h : newline ∉ stream) (n k : ℕ) (s : σ) :
    (run (wired d H) (protocolReceiveString n) (⟨stream,out,k⟩,s)).1 = .error .running := by
  rcases Nat.le_total n stream.length with hn | hn
  · have hcut := run_receive_cut d H stream [] out h n hn [] #v[0] aux_start k s
    rwa [List.append_nil] at hcut
  · obtain ⟨m,rfl⟩ := Nat.exists_eq_add_of_le hn
    obtain ⟨aux',haux',hrun⟩ := run_receive_body d H stream [] out h m [] #v[0] aux_start k s
    rw [List.append_nil] at hrun
    rw [protocolReceiveString, hrun]
    exact run_receive_never d H _ out aux' haux' m _ s

theorem run_receive_first (body rest out : Text) (hbody : newline ∉ body) (n k : ℕ) (s : σ) :
    (run (wired d H) (protocolReceiveString n) (⟨body++newline::rest,out,k⟩,s)).1 =
      if body.length+1 < n then .ok (body++[newline]) else .error .running := by
  rcases lt_trichotomy n (body.length+1) with hlt | heq | hgt
  · rw [if_neg (by omega)]
    exact run_receive_cut d H body _ out hbody n (by omega) [] #v[0] aux_start k s
  · rw [if_neg (by omega), heq]
    obtain ⟨aux',haux',hrun⟩ := run_receive_body d H body (newline::rest) out hbody 1 []
      #v[0] aux_start k s
    rw [protocolReceiveString, hrun, List.nil_append, Program.iterate, run_bind,
      run_receiveStep_byte d H body rest out aux' haux' newline]
    rfl
  · rw [if_pos hgt]
    rw [run_receive_line d H body rest out hbody n hgt k s]

theorem run_socketSend (hd : d.Reliable) (cmd : Text) (w : Wire) (s : σ) :
    ∃ k, run (wired d H) (protocolSendString cmd) (w,s) =
      (.ok (),⟨w.incoming,w.outgoing ++ transmitted cmd,k⟩,s) := by
  obtain ⟨k,hk⟩ := run_sendLoop d H hd (transmitted cmd) w s
  refine ⟨k,?_⟩
  rw [protocolSendString, socketSend, run_bind, ← transmitted, hk]
  rfl

theorem run_socketSend_cases (cmd : Text) (w : Wire) (s : σ) :
    (∃ k, sentBy d (transmitted cmd).length w.calls = some k ∧
      run (wired d H) (protocolSendString cmd) (w,s) =
        (.ok (),⟨w.incoming,w.outgoing++transmitted cmd,k⟩,s)) ∨
      (sentBy d (transmitted cmd).length w.calls = none ∧ ∃ out k,
        run (wired d H) (protocolSendString cmd) (w,s) =
          (.error .thrown,⟨w.incoming,out,k⟩,s)) := by
  rw [protocolSendString, socketSend, run_bind, ← transmitted]
  rcases run_sendLoop_cases d H (transmitted cmd) w s with ⟨k,hk,hrun⟩ | ⟨hnone,out,k,hrun⟩
  · rw [hrun]
    exact .inl ⟨k,hk,rfl⟩
  · rw [hrun]
    exact .inr ⟨hnone,out,k,rfl⟩

theorem run_socketSend_ends (cmd : Text) (w : Wire) (s : σ) :
    ∃ r out k, run (wired d H) (protocolSendString cmd) (w,s) = (r,⟨w.incoming,out,k⟩,s) ∧
      (r = .ok () ∨ r = .error .thrown) := by
  rcases run_socketSend_cases d H cmd w s with ⟨k,-,hrun⟩ | ⟨-,out,k,hrun⟩
  · exact ⟨_,_,k,hrun,.inl rfl⟩
  · exact ⟨_,out,k,hrun,.inr rfl⟩

end Transfers

/-- Answers to the calls on the directories, which other sessions can change
between any two of them. -/
abbrev Shared (σ : Type) := (op : ServerOp) → σ → ServerRes op × σ

def answering {σ : Type} (A : Shared σ) : Handler server Halt σ := fun op s => (.ok (A op s).1,(A op s).2)

theorem answering_ok {σ : Type} (A : Shared σ) (op : ServerOp) (s : σ) (e : Halt) :
    (answering A op s).1 ≠ .error e := by
  simp [answering]

section Sessions
variable {σ : Type} (d : Delivery) (H : Handler server Halt σ)

theorem wired_answers (hH : ∀ op s e, (H op s).1 ≠ .error e) (op : (net server).Op)
    (ws : Wire × σ) (e : Halt) : (wired d H op ws).1 ≠ .error e := by
  cases op with
  | recv len => simp [wired]
  | send buf => simp [wired]
  | shutdown => simp [wired]
  | other op => exact hH op ws.2 e

theorem run_sendString (hH : ∀ op s e, (H op s).1 ≠ .error e) (hd : d.Reliable) (n : ℕ)
    (cmd : Text) (w : Wire) (s : σ) :
    ∃ k, run (wired d H) (overSocket n (.sendString cmd)) (w,s) =
      (.ok true,⟨w.incoming,w.outgoing ++ transmitted cmd,k⟩,s) := by
  obtain ⟨k,hk⟩ := run_socketSend d H hd cmd w s
  refine ⟨k,?_⟩
  rw [overSocket, run_attempt _ _ _ _ fun op ws e he => absurd he (wired_answers d H hH op ws e),
    run_bind, hk]
  rfl

theorem run_sendString_cases (hH : ∀ op s e, (H op s).1 ≠ .error e) (n : ℕ) (cmd : Text)
    (w : Wire) (s : σ) :
    (∃ k, sentBy d (transmitted cmd).length w.calls = some k ∧
      run (wired d H) (overSocket n (.sendString cmd)) (w,s) =
        (.ok true,⟨w.incoming,w.outgoing++transmitted cmd,k⟩,s)) ∨
      (sentBy d (transmitted cmd).length w.calls = none ∧ ∃ out k,
        run (wired d H) (overSocket n (.sendString cmd)) (w,s) =
          (.ok false,⟨w.incoming,out,k⟩,s)) := by
  rw [overSocket, run_attempt _ _ _ _ fun op ws e he => absurd he (wired_answers d H hH op ws e),
    run_bind]
  rcases run_socketSend_cases d H cmd w s with ⟨k,hk,hrun⟩ | ⟨hnone,out,k,hrun⟩
  · rw [hrun]
    exact .inl ⟨k,hk,rfl⟩
  · rw [hrun]
    exact .inr ⟨hnone,out,k,rfl⟩

end Sessions

end Workshop.FtpNetwork
