import Workshop.FtpNetwork
import Workshop.FtpShared

/-!
# The names of the directories

A name keeps the line end of the query it came with, so the list has one line
for each directory. The line `MKD` without an argument is the exception: it
makes a directory without a name, and the reply takes the last character of
an empty text.
-/

set_option autoImplicit false

namespace Workshop.FtpNames
open Workshop.CMemory Workshop.InteractiveProgram Workshop.ThreadPool
open Workshop.FtpConfig Workshop.FtpCommand Workshop.FtpDirectories Workshop.FtpServer
open Workshop.FtpContract Workshop.FtpNetwork Workshop.FtpShared

def IsName (d : Text) : Prop := ∃ body, body ≠ [] ∧ newline ∉ body ∧ d = body++[newline]

/-- A client that is logged in sends `MKD` and no argument. -/
def Nameless (cli : Client) (query : Text) : Prop := cli.logged = true ∧ query = text "MKD\n"

def Named : ServerOp → Prop
  | .note (.received cli query) => ¬ Nameless cli query
  | _ => True

instance (cli : Client) (query : Text) : Decidable (Nameless cli query) :=
  inferInstanceAs (Decidable (_ ∧ _))

instance : DecidablePred Named
  | .note (.received cli query) => inferInstanceAs (Decidable (¬ Nameless cli query))
  | .note (.handled _) => .isTrue trivial
  | .receiveString => .isTrue trivial
  | .sendString _ => .isTrue trivial
  | .addDirectory _ => .isTrue trivial
  | .removeDirectory _ => .isTrue trivial
  | .directoriesSize => .isTrue trivial
  | .getList => .isTrue trivial

/-- The directories in runs in which every `MKD` names one. -/
def naming : Object server Directories := fun s op r s' => directories s op r s' ∧ Named op

def named : Contract server Unit where
  may _ op := match op with
    | .addDirectory d => IsName d
    | _ => True
  rely _ op r := match op, r with
    | .receiveString, query => IsLine query
    | .removeDirectory d, removed => removed = true → IsName d
    | .note (.received cli query), _ => ¬ Nameless cli query
    | _, _ => True
  view _ _ _ := ()

def Names (s : Directories) : Prop := ∀ d ∈ s, IsName d

theorem naming_upholds : Upholds naming named Names := by
  intro s op r s' _ hs hmay ha
  obtain ⟨ha,hnamed⟩ := ha
  cases op with
  | receiveString => exact ⟨ha.2 ▸ hs,ha.1⟩
  | sendString t =>
    have hsame : s' = s := ha
    exact ⟨hsame ▸ hs,trivial⟩
  | addDirectory d =>
    have ha : (r,s') = addDirectory s d := ha
    rw [addDirectory_eq] at ha
    cases ha
    refine ⟨?_,trivial⟩
    intro e he
    rcases Finset.mem_insert.mp he with rfl | he
    · exact hmay
    · exact hs e he
  | removeDirectory d =>
    have ha : (r,s') = removeDirectory s d := ha
    rw [removeDirectory_eq] at ha
    cases ha
    exact ⟨fun e he => hs e (Finset.mem_of_mem_erase he),fun hd => hs d (of_decide_eq_true hd)⟩
  | directoriesSize => exact ⟨ha.2 ▸ hs,trivial⟩
  | getList => exact ⟨ha.2 ▸ hs,trivial⟩
  | note e =>
    have hsame : s' = s := ha
    refine ⟨hsame ▸ hs,?_⟩
    cases e with
    | received cli query => exact hnamed
    | handled cli => trivial

theorem isName_line {d : Text} (h : IsLine d) (hlen : 2 ≤ d.length) : IsName d := by
  obtain ⟨body,hbody,rfl⟩ := h
  refine ⟨body,?_,hbody,rfl⟩
  intro hnil
  simp [hnil] at hlen

theorem isName_isLine {d : Text} (h : IsName d) : IsLine d := by
  obtain ⟨body,-,hbody,rfl⟩ := h
  exact ⟨body,hbody,rfl⟩

theorem isName_nil : ¬ IsName [] := by
  rintro ⟨body,_,_,h⟩
  simp at h

theorem named_quiet {cmd : Command} (hmkd : ∀ d, cmd = .mkd d → IsName d) :
    Quiet named () cmd := by
  intro op hop
  refine ⟨?_,fun _ _ => rfl⟩
  cases op with
  | addDirectory d => exact hmkd d hop
  | _ => trivial

theorem unnamed (d : Text) (h : Command.invalid = .mkd d) : IsName d := nomatch h

theorem named_reason {cfg : Config} {cmd : Command} {e : Halt} (hmkd : cmd ≠ .mkd [])
    (h : Reason named () cfg cmd e) : e ≠ .fault .emptyText := by
  cases h with
  | refused => nofun
  | missing => nofun
  | nameless h =>
    rcases h with h | ⟨_,h⟩
    · exact absurd h hmkd
    · exact absurd (h rfl) isName_nil

theorem named_response {cfg : Config} {cli : Client} {query : Text} (hline : IsLine query)
    (hn : ¬ Nameless cli query) {cmd : Command} (hc : createCommand query = .ok cmd) :
    Keeps named (fun _ _ => True) (fun e _ => e ≠ .fault .emptyText) (sendResponse cfg cli cmd)
      () := by
  by_cases hplain : cli.logged = false ∨ usesDirectories cmd = false
  · apply keeps_mono (fun _ _ _ => trivial) _ (keeps_plain cfg (named_quiet unnamed) cli hplain)
    intro e _ h
    exact named_reason (fun hcmd => isName_nil (unnamed [] hcmd)) h.2
  · obtain ⟨hl,_⟩ := not_or.mp hplain
    rw [Bool.not_eq_false] at hl
    have hmkd : ∀ d, cmd = .mkd d → IsName d := by
      intro d hd
      subst hd
      rcases create_mkd hline hc with ⟨hq,_⟩ | ⟨hd,hlen⟩
      · exact absurd ⟨hl,hq⟩ hn
      · exact isName_line hd hlen
    apply keeps_mono (fun _ _ _ => trivial) _ (keeps_response cfg (named_quiet hmkd) cli)
    intro e _ h
    exact named_reason (fun hcmd => isName_nil (hmkd [] hcmd)) h.2

theorem named_session (cfg : Config) (n : ℕ) :
    Keeps named (fun _ _ => True) (fun e _ => e ≠ .fault .emptyText) (respondClient cfg n) () := by
  apply keeps_session (J := fun _ _ => True)
  · apply keeps_mono (fun _ _ _ => trivial) _ (keeps_sendHello cfg (named_quiet unnamed))
    intro e _ h
    exact named_reason (fun hcmd => isName_nil (unnamed [] hcmd)) h.2
  · intro _ _
    apply keeps_loop
    · intro _ _ _ _
      trivial
    · intro cli _ query _ _ hline hlen
      constructor
      · trivial
      · intro _ hn
        rw [respondQuery]
        have hne : query ≠ [] := by
          intro hnil
          simp [hnil] at hlen
        obtain ⟨cmd,hc⟩ := create_total hne
        rw [hc]
        apply keeps_bind
        apply keeps_mono _ (fun _ _ h => h) (named_response hline hn hc)
        intro cli' _ _
        exact ⟨trivial,fun _ _ => trivial⟩
    · intro _ _ _ _ _ _ _
      trivial
    · intro _ _ _ h
      cases h
    · trivial
  · intro _ _ _ _
    trivial
  · intro _ _
    trivial

theorem list_lines {s : Directories} (hs : Names s) :
    splitLines (getList s) = ((ordered s).map fun d => dirFormat++d,[]) := by
  have hall : ∀ d ∈ ordered s, IsName d := fun d hd => hs d (mem_ordered.mp hd)
  rw [getList]
  generalize ordered s = names at hall
  induction names with
  | nil => rfl
  | cons d names ih =>
    obtain ⟨body,_,hbody,rfl⟩ := hall d List.mem_cons_self
    have hline : newline ∉ dirFormat++body := by
      intro h
      rcases List.mem_append.mp h with h | h
      · revert h
        decide
      · exact hbody h
    have hrest := ih fun e he => hall e (List.mem_cons_of_mem _ he)
    have hsplit := splitLines_line hline (names.flatMap fun d => dirFormat++d)
    rw [List.flatMap_cons, List.map_cons]
    simp only [List.append_assoc, List.singleton_append] at hsplit ⊢
    rw [hsplit, hrest]

variable {ι : Type} [DecidableEq ι]

/-- In every run in which no client that is logged in sends `MKD` without an
argument, every directory has a name, the list has a line for each of them and
no reply drops the last character of an empty text. -/
theorem directories_named {cfg : Config} {n : ι → ℕ} {q : ServerPool ι}
    (h : Reaches naming (serverStart cfg ∅ n) q) :
    Names q.shared ∧
    splitLines (getList q.shared) = ((ordered q.shared).map fun d => dirFormat++d,[]) ∧
    ∀ i, q.thread i ≠ .fail (.fault .emptyText) := by
  have hstart : Names ∅ := fun d hd => absurd hd (Finset.notMem_empty d)
  obtain ⟨hnames,hkeeps⟩ := reaches_keeps naming_upholds (fun i => named_session cfg (n i)) hstart h
  refine ⟨hnames,list_lines hnames,?_⟩
  intro i hi
  have hfault := hkeeps i
  rw [hi] at hfault
  exact hfault rfl

theorem directories_named_listing :
    ∃ q : ServerPool Unit, Reaches naming (serverStart namesConfig ∅ fun _ => 4) q ∧
      q.shared = {text "foo\n"} ∧
      splitLines (getList q.shared) = ((ordered q.shared).map fun d => dirFormat++d,[]) := by
  have hnamed : ∀ e ∈ listingCalls (text "foo\n"), Named e.op := by decide
  have hserved := listing_served (d := text "foo\n") (by decide) ⟨text "foo",by decide,by decide⟩
  obtain ⟨x,hperf⟩ := performs_listing (d := text "foo\n") (by decide)
  obtain ⟨q,hq,_,hshared,_⟩ := reaches_performed hperf (replays_restrict hserved hnamed)
  exact ⟨q,hq,hshared,(directories_named hq).2.1⟩

def namelessCalls : List (Event server) :=
  [⟨.sendString (text "220 newClient\n"),true⟩,
    ⟨.receiveString,text "USER user\n"⟩,
    ⟨.note (.received Client.new (text "USER user\n")),()⟩,
    ⟨.sendString (text "331 passRequired\n"),true⟩,
    ⟨.note (.handled ⟨false,false,text "user\n"⟩),()⟩,
    ⟨.receiveString,text "PASS password\n"⟩,
    ⟨.note (.received ⟨false,false,text "user\n"⟩ (text "PASS password\n")),()⟩,
    ⟨.sendString (text "230 loginSuccess\n"),true⟩,
    ⟨.note (.handled member),()⟩,
    ⟨.receiveString,text "MKD\n"⟩,
    ⟨.note (.received member (text "MKD\n")),()⟩,
    ⟨.addDirectory [],true⟩]

theorem nameless_made :
    ∃ q : ServerPool Unit, Reaches directories (serverStart namesConfig ∅ fun _ => 3) q ∧
      ¬ Names q.shared ∧ q.thread () = .fail (.fault .emptyText) := by
  have hperf : Performs (respondClient namesConfig 3) namelessCalls (.fail (.fault .emptyText)) :=
    follow_performs rfl
  have huser : IsLine (text "USER user\n") := ⟨text "USER user",by decide,by decide⟩
  have hpass : IsLine (text "PASS password\n") := ⟨text "PASS password",by decide,by decide⟩
  have hmkd : IsLine (text "MKD\n") := ⟨text "MKD",by decide,by decide⟩
  have hadd : (true,{[]}) = addDirectory ∅ [] := by simp [addDirectory]
  have hserved : Replays directories ∅ namelessCalls {[]} :=
    .step _ _ rfl <| .step _ _ ⟨huser,rfl⟩ <| .step _ _ rfl <| .step _ _ rfl <|
    .step _ _ rfl <| .step _ _ ⟨hpass,rfl⟩ <| .step _ _ rfl <| .step _ _ rfl <|
    .step _ _ rfl <| .step _ _ ⟨hmkd,rfl⟩ <| .step _ _ rfl <| .step _ _ hadd <| .none _
  obtain ⟨q,hq,_,hshared,hthread⟩ := reaches_performed hperf hserved
  refine ⟨q,hq,?_,hthread⟩
  intro hnames
  rw [hshared] at hnames
  exact isName_nil (hnames [] (Finset.mem_singleton_self _))

theorem long_name : ∃ d, IsName d ∧ 2^31 ≤ d.length := by
  have hbody : newline ∉ List.replicate (2^31) (97 : UInt8) := by
    intro h
    exact absurd (List.eq_of_mem_replicate h) (by decide)
  have hne : List.replicate (2^31) (97 : UInt8) ≠ [] := by
    intro h
    have hlength := congrArg List.length h
    rw [List.length_replicate, List.length_nil] at hlength
    omega
  refine ⟨_,⟨_,hne,hbody,rfl⟩,?_⟩
  rw [List.length_append, List.length_replicate]
  omega

end Workshop.FtpNames
