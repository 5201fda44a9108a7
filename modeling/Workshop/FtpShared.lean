import Workshop.FtpContract
import Workshop.ThreadPool

/-!
# All sessions of the file server

Every client has its own thread, and the threads share the directories. A
thread takes one call at a time, in any order with the calls of the others.
What a peer sends is up to the peer: a read can return any line.
-/

set_option autoImplicit false

namespace Workshop.FtpShared
open Workshop.CMemory Workshop.InteractiveProgram Workshop.ThreadPool
open Workshop.FtpConfig Workshop.FtpCommand Workshop.FtpDirectories Workshop.FtpServer

def directories : Object server Directories := fun s op r s' =>
  match op, r with
  | .receiveString, query => IsLine query ∧ s' = s
  | .sendString _, _ => s' = s
  | .addDirectory d, added => (added,s') = addDirectory s d
  | .removeDirectory d, removed => (removed,s') = removeDirectory s d
  | .directoriesSize, size => size = directoriesSize s ∧ s' = s
  | .getList, list => list = getList s ∧ s' = s
  | .note _, _ => s' = s

variable {ι : Type} [DecidableEq ι]

abbrev ServerPool (ι : Type) := Pool ι server Halt Unit Directories

def serverStart (cfg : Config) (dirs : Directories) (n : ι → ℕ) : ServerPool ι :=
  initial dirs fun i => respondClient cfg (n i)

/-- What a session's notes tell: the query it is working on, and the queries it
has handled with the client record after each. -/
structure History where
  pending : Option (Client × Text)
  handled : List (Text × Client)

def History.empty : History := ⟨none,[]⟩

def observe (h : History) : (op : ServerOp) → ServerRes op → History
  | .note (.received cli query), _ => { h with pending := some (cli,query) }
  | .note (.handled cli), _ =>
    match h.pending with
    | some (_,query) => ⟨none,h.handled++[(query,cli)]⟩
    | none => h
  | _, _ => h

def History.queries (h : History) : List Text := h.handled.map Prod.fst

def history (i : ι) (trace : List (ι × Event server)) : History :=
  (own i trace).foldl (fun h e => observe h e.op e.res) .empty

theorem observe_serving {cmd : Command} {op : ServerOp} (hop : FtpContract.Serving cmd op)
    (h : History) (r : ServerRes op) : observe h op r = h := by
  cases op with
  | note e => cases hop
  | _ => rfl

theorem performs_turn {cfg : Config} {cli cli' : Client} {query : Text} {es : List (Event server)}
    (hquit : cli.quit = false) (hlen : 1 < query.length)
    (h : Performs (respondQuery cfg query cli) es (.ret cli')) (n : ℕ) :
    Performs (Program.iterate .running (serveQuery cfg) (n+1) cli)
      (⟨.receiveString,query⟩::⟨.note (.received cli query),()⟩::es++[⟨.note (.handled cli'),()⟩])
      (Program.iterate .running (serveQuery cfg) n cli') := by
  have hanswer : Performs (answerQuery cfg query cli)
      (⟨.note (.received cli query),()⟩::es++[⟨.note (.handled cli'),()⟩]) (.ret cli') := by
    have hnotes := performs_bind h fun cli => (.call (.note (.handled cli)) fun _ => .ret cli)
    exact .step (I := server) (.note (.received cli query)) _ () (performs_snoc hnotes ())
  have hturn : Performs (serveQuery cfg cli)
      (⟨.receiveString,query⟩::⟨.note (.received cli query),()⟩::es++[⟨.note (.handled cli'),()⟩])
      (.ret (.inl cli')) := by
    rw [serveQuery, hquit, if_neg (by simp)]
    apply Performs.step (I := server) .receiveString _ query
    rw [if_pos hlen]
    exact performs_bind hanswer _
  exact performs_bind hturn _

theorem performs_session {cfg : Config} {n : ℕ} {es es' : List (Event server)}
    {p : Session Client} (hhello : Performs (sendHello cfg) es (.ret ()))
    (h : Performs (Program.iterate .running (serveQuery cfg) n Client.new) es' p) :
    ∃ x, Performs (respondClient cfg n) (es++es') x := by
  have hbody := performs_bind h fun _ => (.ret () : Session Unit)
  have hstart := performs_bind hhello fun _ =>
    Program.iterate .running (serveQuery cfg) n Client.new >>= fun _ => (.ret () : Session Unit)
  exact ⟨_,performs_attempt (performs_trans hstart hbody) catchException⟩

theorem reaches_performed {A : Object server Directories} {cfg : Config} {n : ℕ}
    {es : List (Event server)} {dirs dirs' : Directories} {x : Session Unit}
    (hp : Performs (respondClient cfg n) es x) (hs : Replays A dirs es dirs') :
    ∃ q : ServerPool Unit, Reaches A (serverStart cfg dirs fun _ => n) q ∧
      q.trace = (es.map fun e => ((),e)) ∧ q.shared = dirs' ∧ q.thread () = x :=
  ⟨_,reaches_alone .start () hp hs,rfl,rfl,by simp⟩

theorem reaches_session {cfg : Config} {n : ℕ} {es : List (Event server)} {dirs dirs' : Directories}
    (hp : (follow es (respondClient cfg n)).isSome) (hs : Replays directories dirs es dirs') :
    ∃ q : ServerPool Unit, Reaches directories (serverStart cfg dirs fun _ => n) q ∧
      q.trace = es.map fun e => ((),e) := by
  obtain ⟨x,hx⟩ := Option.isSome_iff_exists.mp hp
  obtain ⟨q,hq,htrace,_⟩ := reaches_performed (follow_performs hx) hs
  exact ⟨q,hq,htrace⟩

def member : Client := ⟨true,false,text "user\n"⟩

def listingCalls (d : Text) : List (Event server) :=
  [⟨.sendString (text "220 newClient\n"),true⟩,
    ⟨.receiveString,text "USER user\n"⟩,
    ⟨.note (.received Client.new (text "USER user\n")),()⟩,
    ⟨.sendString (text "331 passRequired\n"),true⟩,
    ⟨.note (.handled ⟨false,false,text "user\n"⟩),()⟩,
    ⟨.receiveString,text "PASS password\n"⟩,
    ⟨.note (.received ⟨false,false,text "user\n"⟩ (text "PASS password\n")),()⟩,
    ⟨.sendString (text "230 loginSuccess\n"),true⟩,
    ⟨.note (.handled member),()⟩,
    ⟨.receiveString,text "MKD "++d⟩,
    ⟨.note (.received member (text "MKD "++d)),()⟩,
    ⟨.addDirectory d,true⟩,
    ⟨.sendString (replyDir namesConfig idMkdSuccess d msgMkdSuccess),true⟩,
    ⟨.note (.handled member),()⟩,
    ⟨.receiveString,text "LIST\n"⟩,
    ⟨.note (.received member (text "LIST\n")),()⟩,
    ⟨.sendString (text "150 listBegin\n"),true⟩,
    ⟨.directoriesSize,(1:ℤ)⟩,
    ⟨.getList,dirFormat++d⟩,
    ⟨.sendString (dirFormat++d),true⟩,
    ⟨.sendString (text "226 listEnd\n"),true⟩,
    ⟨.note (.handled member),()⟩]

section Listing
variable {d : Text} (hd : 2 ≤ d.length)
include hd

theorem create_listed : createCommand (text "MKD "++d) = .ok (.mkd d) := by
  have hlen : 5 < (text "MKD"++blank::d).length := by
    have hname : (text "MKD").length = 3 := rfl
    rw [List.length_append, List.length_cons, hname]
    omega
  exact create_split (by decide) hlen

theorem performs_listing :
    ∃ x, Performs (respondClient namesConfig 4) (listingCalls d) x := by
  have hne : d ≠ [] := by
    intro hnil
    simp [hnil] at hd
  have huser : Performs (respondQuery namesConfig (text "USER user\n") Client.new)
      [⟨.sendString (text "331 passRequired\n"),true⟩] (.ret ⟨false,false,text "user\n"⟩) :=
    follow_performs rfl
  have hpass : Performs
      (respondQuery namesConfig (text "PASS password\n") ⟨false,false,text "user\n"⟩)
      [⟨.sendString (text "230 loginSuccess\n"),true⟩] (.ret member) :=
    follow_performs rfl
  have hmkd : Performs (respondQuery namesConfig (text "MKD "++d) member)
      [⟨.addDirectory d,true⟩,⟨.sendString (replyDir namesConfig idMkdSuccess d msgMkdSuccess),true⟩] (.ret member) := by
    rw [respondQuery, create_listed hd]
    apply Performs.step (I := server) (.addDirectory d) _ true
    rw [if_pos rfl, sendDirectory_eq (by decide) _ hne]
    exact .step (I := server) (.sendString _) _ true (.none _)
  have hlist : Performs (respondQuery namesConfig (text "LIST\n") member)
      [⟨.sendString (text "150 listBegin\n"),true⟩,⟨.directoriesSize,(1:ℤ)⟩,
        ⟨.getList,dirFormat++d⟩,⟨.sendString (dirFormat++d),true⟩,
        ⟨.sendString (text "226 listEnd\n"),true⟩] (.ret member) := by
    apply Performs.step (I := server) (.sendString _) _ true
    apply Performs.step (I := server) .directoriesSize _ (1:ℤ)
    apply Performs.step (I := server) .getList _ (dirFormat++d)
    apply Performs.step (I := server) (.sendString _) _ true
    exact .step (I := server) (.sendString _) _ true (.none _)
  have hmkdlen : 1 < (text "MKD "++d).length := by
    rw [List.length_append]
    omega
  have hhello : Performs (sendHello namesConfig) [⟨.sendString (text "220 newClient\n"),true⟩]
      (.ret ()) := follow_performs rfl
  exact performs_session hhello <|
    performs_trans (performs_turn rfl (by decide) huser 3) <|
    performs_trans (performs_turn rfl (by decide) hpass 2) <|
    performs_trans (performs_turn rfl hmkdlen hmkd 1) (performs_turn rfl (by decide) hlist 0)

theorem listing_served (hline : IsLine d) : Replays directories ∅ (listingCalls d) {d} := by
  have huser : IsLine (text "USER user\n") := ⟨text "USER user",by decide,by decide⟩
  have hpass : IsLine (text "PASS password\n") := ⟨text "PASS password",by decide,by decide⟩
  have hlist : IsLine (text "LIST\n") := ⟨text "LIST",by decide,by decide⟩
  have hmkd : IsLine (text "MKD "++d) := by
    obtain ⟨body,hbody,rfl⟩ := hline
    refine ⟨text "MKD "++body,?_,by simp⟩
    intro h
    rcases List.mem_append.mp h with h | h
    · revert h
      decide
    · exact hbody h
  have hadd : (true,{d}) = addDirectory ∅ d := by simp [addDirectory]
  have hsize : (1:ℤ) = directoriesSize {d} := by
    rw [directoriesSize, Finset.card_singleton, narrow_small (by norm_num)]
    rfl
  have hget : dirFormat++d = getList {d} := (getList_singleton d).symm
  exact .step _ _ rfl <| .step _ _ ⟨huser,rfl⟩ <| .step _ _ rfl <| .step _ _ rfl <|
    .step _ _ rfl <| .step _ _ ⟨hpass,rfl⟩ <| .step _ _ rfl <| .step _ _ rfl <|
    .step _ _ rfl <| .step _ _ ⟨hmkd,rfl⟩ <| .step _ _ rfl <| .step _ _ hadd <|
    .step _ _ rfl <| .step _ _ rfl <| .step _ _ ⟨hlist,rfl⟩ <| .step _ _ rfl <|
    .step _ _ rfl <| .step _ _ ⟨hsize,rfl⟩ <| .step _ _ ⟨hget,rfl⟩ <| .step _ _ rfl <|
    .step _ _ rfl <| .step _ _ rfl <| .none _

end Listing

end Workshop.FtpShared
