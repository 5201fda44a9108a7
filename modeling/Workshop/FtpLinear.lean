import Workshop.FtpNetwork
import Workshop.FtpShared
import Workshop.Linearization

/-!
# The directories as one set

`LIST`, `MKD` and `RMD` of clients that are logged in are calls of a plain set
of names. `LIST` takes the mutex twice. It takes effect at the size when there
is nothing to list, and otherwise where the list is made.
-/

set_option autoImplicit false

namespace Workshop.FtpLinear
open Workshop.CMemory Workshop.InteractiveProgram Workshop.ThreadPool Workshop.Linearization
open Workshop.FtpConfig Workshop.FtpCommand Workshop.FtpDirectories Workshop.FtpServer
open Workshop.FtpContract Workshop.FtpNetwork Workshop.FtpShared

inductive Query where
  | list
  | mkd (dirname : Text)
  | rmd (dirname : Text)
  deriving DecidableEq, Repr

inductive Outcome where
  | listed (names : List Text)
  | created (success : Bool)
  | removed (success : Bool)
  deriving DecidableEq, Repr

def plainSet : Query → Directories → Outcome × Directories
  | .list, s => (.listed (ordered s),s)
  | .mkd d, s => (.created (d ∉ s),insert d s)
  | .rmd d, s => (.removed (d ∈ s),s.erase d)

def listAnswer (cfg : Config) (listing : Text) : Text :=
  reply cfg idListBegin msgListBegin++listing++reply cfg idListEnd msgListEnd

def answerText (cfg : Config) : Query → Outcome → Text
  | .mkd d, .created success => mkdAnswer cfg d success
  | .rmd d, .removed success => rmdAnswer cfg d success
  | _, .listed names => listAnswer cfg (names.flatMap fun d => dirFormat++d)
  | _, _ => []

def setAnswers (cfg : Config) (x : Query) (s : Directories) : Text × Directories :=
  (answerText cfg x (plainSet x s).1,(plainSet x s).2)

def successOf (d : Text) : Query → Outcome → Option Bool
  | .mkd d', .created true => if d' = d then some true else none
  | .rmd d', .removed true => if d' = d then some false else none
  | _, _ => none

def successes (d : Text) : Directories → List Query → List Bool
  | _, [] => []
  | s, x::xs => (successOf d x (plainSet x s).1).toList++successes d (plainSet x s).2 xs

theorem success_turns (d : Text) (x : Query) (s : Directories) :
    match successOf d x (plainSet x s).1 with
    | some b => (d ∈ s ↔ b = false) ∧ (d ∈ (plainSet x s).2 ↔ b = true)
    | none => d ∈ (plainSet x s).2 ↔ d ∈ s := by
  cases x with
  | list => exact Iff.rfl
  | mkd d' =>
    by_cases hs : d' ∈ s
    · simp [plainSet, successOf, hs]
    · by_cases hd : d' = d
      · subst hd
        simp [plainSet, successOf, hs]
      · simp [plainSet, successOf, hs, hd, Ne.symm hd]
  | rmd d' =>
    by_cases hs : d' ∈ s
    · by_cases hd : d' = d
      · subst hd
        simp [plainSet, successOf, hs]
      · simp [plainSet, successOf, hs, hd, Ne.symm hd]
    · simp [plainSet, successOf, hs]

/-- Successful queries on a name take turns, and the last one tells whether
the name is there. -/
theorem successes_alternate (cfg : Config) (d : Text) {ι : Type} {s s' : Directories}
    {order : List (Call ι Query UInt8)} (h : Replay (setAnswers cfg) s order s') :
    (decide (d ∈ s)::successes d s (order.map Call.input)).IsChain (· ≠ ·) ∧
    (decide (d ∈ s)::successes d s (order.map Call.input)).getLast? = some (decide (d ∈ s')) := by
  induction order generalizing s with
  | nil =>
    rw [Replay] at h
    subst h
    simp [successes]
  | cons c order ih =>
    obtain ⟨hchain,hlast⟩ := ih h.2
    have hturn := success_turns d c.input s
    rw [List.map_cons, successes]
    cases hx : successOf d c.input (plainSet c.input s).1 with
    | none =>
      rw [hx] at hturn
      have hsame : decide (d ∈ (setAnswers cfg c.input s).2) = decide (d ∈ s) :=
        decide_eq_decide.mpr hturn
      rw [hsame] at hchain hlast
      exact ⟨hchain,hlast⟩
    | some b =>
      rw [hx] at hturn
      have hafter : decide (d ∈ (setAnswers cfg c.input s).2) = b := by
        cases b with
        | true => exact decide_eq_true (hturn.2.mpr rfl)
        | false => exact decide_eq_false (fun hd => Bool.noConfusion (hturn.2.mp hd))
      have hbefore : decide (d ∈ s) ≠ b := by
        cases b <;> simpa using hturn.1
      rw [hafter] at hchain hlast
      constructor
      · exact List.isChain_cons_cons.mpr ⟨hbefore,hchain⟩
      · rw [Option.toList_some, List.singleton_append, List.getLast?_cons_cons]
        exact hlast

def usedBy : Command → Option Query
  | .list => some .list
  | .mkd dirname => some (.mkd dirname)
  | .rmd dirname => some (.rmd dirname)
  | _ => none

def queryOf (cli : Client) (query : Text) : Option Query :=
  match createCommand query with
  | .ok cmd => if cli.logged then usedBy cmd else none
  | .error _ => none

def queryLabel : (op : ServerOp) → ServerRes op → Label Query UInt8
  | .note (.received cli query), _ =>
    match queryOf cli query with
    | some x => .begins x
    | none => .silent
  | .note (.handled _), _ => .ends
  | .sendString cmd, true => .emits (transmitted cmd)
  | _, _ => .silent

def queryPoint (cfg : Config) : Query → (op : ServerOp) → ServerRes op → Option Text
  | .list, .directoriesSize, size => if size > 0 then none else some (listAnswer cfg [])
  | .list, .getList, list => some (listAnswer cfg list)
  | .mkd d, .addDirectory d', added => if d' = d then some (mkdAnswer cfg d added) else none
  | .rmd d, .removeDirectory d', removed => if d' = d then some (rmdAnswer cfg d removed) else none
  | _, _, _ => none

def changes : ServerOp → Prop
  | .addDirectory _ => True
  | .removeDirectory _ => True
  | _ => False

def queries (cfg : Config) : Labelling server Query UInt8 := ⟨queryLabel,queryPoint cfg,changes⟩

def queryCalls {ι : Type} [DecidableEq ι] (cfg : Config) (trace : List (ι × Event server)) :
    List (Call ι Query UInt8) :=
  callsOf (queries cfg) trace

/-- Every answer has less than `2^31` bytes, and the number of directories is
not mistaken for none. -/
def Fits (cfg : Config) (s : Directories) : ServerOp → Prop
  | .note (.received cli query) => queryOf cli query = some .list →
    replySize cfg msgListBegin < 2^31 ∧ replySize cfg msgListEnd < 2^31
  | .addDirectory d =>
    (if d ∈ s then replySize cfg msgMkdFailure else replyDirSize cfg d msgMkdSuccess) < 2^31
  | .removeDirectory d =>
    (if d ∈ s then replyDirSize cfg d msgRmdSuccess else replySize cfg msgRmdFailed) < 2^31
  | .directoriesSize => s = ∅ ∨ 0 < narrow s.card
  | .getList => listingSize s < 2^31
  | _ => True

def fitting (cfg : Config) : Object server Directories := fun s op r s' =>
  directories s op r s' ∧ Fits cfg s op

section Points
variable {cfg : Config} {op : ServerOp} {r : ServerRes op} {answer : Text} {s s' : Directories}

/-- An empty set is answered without its list. -/
theorem list_point (hpoint : queryPoint cfg .list op r = some answer)
    (ha : fitting cfg s op r s') : setAnswers cfg .list s = (answer,s') := by
  obtain ⟨ha,hfits⟩ := ha
  cases op with
  | directoriesSize =>
    obtain ⟨hsize,rfl⟩ := ha
    simp only [queryPoint] at hpoint
    split at hpoint
    · cases hpoint
    · rename_i hle
      cases hpoint
      have hempty : s' = ∅ := by
        rcases hfits with hempty | hpos
        · exact hempty
        · rw [hsize] at hle
          exact absurd hpos hle
      simp [setAnswers, plainSet, answerText, hempty, ordered]
  | getList =>
    obtain ⟨hlist,rfl⟩ := ha
    cases hpoint
    rw [hlist]
    rfl
  | _ => cases hpoint

theorem mkd_point {d : Text} (hpoint : queryPoint cfg (.mkd d) op r = some answer)
    (ha : fitting cfg s op r s') : setAnswers cfg (.mkd d) s = (answer,s') := by
  cases op with
  | addDirectory d' =>
    simp only [queryPoint] at hpoint
    split at hpoint
    · rename_i hd
      subst hd
      cases hpoint
      have ha : (r,s') = addDirectory s d' := ha.1
      rw [addDirectory_eq] at ha
      cases ha
      rfl
    · cases hpoint
  | _ => cases hpoint

theorem rmd_point {d : Text} (hpoint : queryPoint cfg (.rmd d) op r = some answer)
    (ha : fitting cfg s op r s') : setAnswers cfg (.rmd d) s = (answer,s') := by
  cases op with
  | removeDirectory d' =>
    simp only [queryPoint] at hpoint
    split at hpoint
    · rename_i hd
      subst hd
      cases hpoint
      have ha : (r,s') = removeDirectory s d' := ha.1
      rw [removeDirectory_eq] at ha
      cases ha
      rfl
    · cases hpoint
  | _ => cases hpoint

end Points

theorem queries_sound (cfg : Config) : Sound (queries cfg) (setAnswers cfg) (fitting cfg) := by
  constructor
  · intro x op r answer s s' hpoint ha
    cases x with
    | list => exact list_point hpoint ha
    | mkd d => exact mkd_point hpoint ha
    | rmd d => exact rmd_point hpoint ha
  · intro op r s s' hop ha
    obtain ⟨ha,_⟩ := ha
    cases op with
    | receiveString => exact ha.2
    | sendString cmd => exact ha
    | addDirectory d => exact absurd trivial hop
    | removeDirectory d => exact absurd trivial hop
    | directoriesSize => exact ha.2
    | getList => exact ha.2
    | note e => exact ha
  · intro x op r answer hpoint
    cases op with
    | sendString cmd => cases x <;> cases hpoint
    | note e => cases x <;> cases hpoint
    | _ => rfl

def Sized (cfg : Config) : (op : ServerOp) → ServerRes op → Prop
  | .note (.received cli query), _ => queryOf cli query = some .list →
    (reply cfg idListBegin msgListBegin).length < 2^31 ∧
      (reply cfg idListEnd msgListEnd).length < 2^31
  | .addDirectory d, added => (mkdAnswer cfg d added).length < 2^31
  | .removeDirectory d, removed => (rmdAnswer cfg d removed).length < 2^31
  | .getList, list => list.length < 2^31
  | _, _ => True

theorem fitting_sized (cfg : Config) (s : Directories) (op : ServerOp) (r : ServerRes op)
    (s' : Directories) (h : fitting cfg s op r s') : Sized cfg op r := by
  obtain ⟨ha,hfits⟩ := h
  cases op with
  | note e =>
    cases e with
    | received cli query =>
      intro hquery
      rw [reply_size cfg (by decide), reply_size cfg (by decide)]
      exact hfits hquery
    | handled cli => trivial
  | addDirectory d =>
    have ha : (r,s') = addDirectory s d := ha
    rw [addDirectory_eq] at ha
    cases ha
    simp only [Fits] at hfits
    by_cases hs : d ∈ s
    · rw [if_pos hs] at hfits
      rw [Sized, decide_eq_false (not_not.mpr hs)]
      exact (reply_size cfg (by decide) _).trans_lt hfits
    · rw [if_neg hs] at hfits
      rw [Sized, decide_eq_true hs]
      exact (replyDir_size cfg (by decide) _ _).trans_lt hfits
  | removeDirectory d =>
    have ha : (r,s') = removeDirectory s d := ha
    rw [removeDirectory_eq] at ha
    cases ha
    simp only [Fits] at hfits
    by_cases hs : d ∈ s
    · rw [if_pos hs] at hfits
      rw [Sized, decide_eq_true hs]
      exact (replyDir_size cfg (by decide) _ _).trans_lt hfits
    · rw [if_neg hs] at hfits
      rw [Sized, decide_eq_false hs]
      exact (reply_size cfg (by decide) _).trans_lt hfits
  | getList =>
    rw [Sized, ha.1, getList_size]
    exact hfits
  | _ => trivial

abbrev tracked (cfg : Config) : Contract server (Phase Query UInt8) :=
  discipline (queries cfg) (Sized cfg)

def Unbroken (ph : Phase Query UInt8) : Prop := ph ≠ .broken

theorem pending_unbroken (q : Query) (out : Text) : Unbroken (.pending q out) := nofun

theorem done_unbroken (rest : Text) : Unbroken (.done rest) := nofun

theorem keeps_text {cfg : Config} {t : Text} {ph ph' : Phase Query UInt8} (hph : ph ≠ .broken)
    (hsent : advance (queries cfg) ph (.sendString t) true = ph')
    (hfailed : advance (queries cfg) ph (.sendString t) false = ph) :
    Keeps (tracked cfg) (fun _ l => l = ph') (fun _ l => Unbroken l) (sendString t) ph := by
  constructor
  · exact ⟨hph,fun hchanges => hchanges.elim⟩
  · intro returned _
    cases returned with
    | true => exact hsent
    | false =>
      change Unbroken (advance (queries cfg) ph (.sendString t) false)
      rw [hfailed]
      exact hph

theorem keeps_message {cfg : Config} {id message : Text} (cli : Client)
    {ph ph' : Phase Query UInt8} (hph : ph ≠ .broken)
    (hsent : Keeps (tracked cfg) (fun _ l => l = ph') (fun _ l => Unbroken l)
      (sendString (reply cfg id message)) ph) :
    Keeps (tracked cfg) (fun _ l => l = ph') (fun _ l => Unbroken l)
      (sendMessage cfg id message cli) ph := by
  by_cases hk : cfg.Defines message
  · rw [sendMessage_eq hk]
    apply keeps_bind
    exact hsent
  · rw [sendMessage, formatCmd, getMessage_fault hk]
    exact hph

theorem keeps_directory {cfg : Config} {id d message : Text} (cli : Client)
    {ph ph' : Phase Query UInt8} (hph : ph ≠ .broken)
    (hsent : Keeps (tracked cfg) (fun _ l => l = ph') (fun _ l => Unbroken l)
      (sendString (replyDir cfg id d message)) ph) :
    Keeps (tracked cfg) (fun _ l => l = ph') (fun _ l => Unbroken l)
      (sendDirectory cfg id d message cli) ph := by
  rw [sendDirectory]
  cases hf : formatCmdDir id d message cfg with
  | error e => exact hph
  | ok t =>
    have ht : t = replyDir cfg id d message := by
      by_cases hd : d = []
      · rw [formatCmdDir, popBack, if_pos hd] at hf
        cases hf
      · by_cases hk : cfg.Defines message
        · rw [formatCmdDir_eq hk id hd] at hf
          exact (Except.ok.inj hf).symm
        · rw [formatCmdDir, popBack, if_neg hd, getMessage_fault hk] at hf
          cases hf
    rw [ht]
    apply keeps_bind
    apply keeps_bind
    exact hsent

theorem keeps_pending (cfg : Config) {t : Text} (ht : t.length < 2^31) (x : Query) (out : Text) :
    Keeps (tracked cfg) (fun _ l => l = .pending x (out++t)) (fun _ l => Unbroken l) (sendString t)
      (.pending x out) := by
  apply keeps_text
  · exact nofun
  · cases x <;> simp [advance, queries, queryPoint, queryLabel, transmitted_small ht]
  · cases x <;> rfl

theorem keeps_done (cfg : Config) {t : Text} (ht : t.length < 2^31) (rest : Text) :
    Keeps (tracked cfg) (fun _ l => l = .done rest) (fun _ l => Unbroken l) (sendString t)
      (.done (t++rest)) := by
  apply keeps_text
  · exact nofun
  · simp [advance, queries, queryLabel, transmitted_small ht]
  · rfl

theorem keeps_list {cfg : Config} (cli : Client) (hl : cli.logged = true)
    (hbegin : (reply cfg idListBegin msgListBegin).length < 2^31)
    (hend : (reply cfg idListEnd msgListEnd).length < 2^31) :
    Keeps (tracked cfg) (fun _ l => l = .done []) (fun _ l => Unbroken l)
      (sendResponse cfg cli .list) (.pending .list []) := by
  rw [sendResponse, listSendResponse, whenLogged, if_pos hl]
  have hlast : Keeps (tracked cfg) (fun _ l => l = .done []) (fun _ l => Unbroken l)
      (sendMessage cfg idListEnd msgListEnd cli) (.done (reply cfg idListEnd msgListEnd)) := by
    have howed := keeps_done cfg hend []
    rw [List.append_nil] at howed
    exact keeps_message cli (done_unbroken _) howed
  have hfirst : Keeps (tracked cfg)
      (fun _ l => l = .pending .list (reply cfg idListBegin msgListBegin)) (fun _ l => Unbroken l)
      (sendMessage cfg idListBegin msgListBegin cli) (.pending .list []) :=
    keeps_message cli (pending_unbroken _ _) (keeps_pending cfg hbegin .list [])
  apply keeps_bind
  apply keeps_mono _ (fun _ _ h => h) hfirst
  intro _ l1 h1
  rw [h1]
  apply keeps_bind
  have hmid : Keeps (tracked cfg) (fun _ l => l = .done (reply cfg idListEnd msgListEnd))
      (fun _ l => Unbroken l) sendList (.pending .list (reply cfg idListBegin msgListBegin)) := by
    constructor
    · exact ⟨pending_unbroken _ _,fun hchanges => hchanges.elim⟩
    · intro size _
      dsimp only
      split
      · rename_i hsize
        have hview : (tracked cfg).view (.pending .list (reply cfg idListBegin msgListBegin))
            .directoriesSize size = .pending .list (reply cfg idListBegin msgListBegin) := by
          simp [tracked, discipline, advance, queries, queryPoint, queryLabel, hsize]
        rw [hview]
        constructor
        · exact ⟨pending_unbroken _ _,fun hchanges => hchanges.elim⟩
        · intro list hlist
          have hview : (tracked cfg).view (.pending .list (reply cfg idListBegin msgListBegin))
              .getList list = .done (list++reply cfg idListEnd msgListEnd) := by
            simp [tracked, discipline, advance, queries, queryPoint, listAnswer]
          rw [hview]
          exact keeps_done cfg hlist _
      · rename_i hsize
        simp [Keeps, tracked, discipline, advance, queries, queryPoint, listAnswer, hsize]
  apply keeps_mono _ (fun _ _ h => h) hmid
  intro _ l2 h2
  rw [h2]
  exact hlast

theorem keeps_mkd {cfg : Config} (cli : Client) (hl : cli.logged = true) (d : Text) :
    Keeps (tracked cfg) (fun _ l => l = .done []) (fun _ l => Unbroken l)
      (sendResponse cfg cli (.mkd d)) (.pending (.mkd d) []) := by
  rw [sendResponse, mkdSendResponse, whenLogged, if_pos hl]
  constructor
  · refine ⟨pending_unbroken _ _,fun _ => ⟨.mkd d,[],rfl,fun added => ?_⟩⟩
    simp [queries, queryPoint]
  · intro added hsize
    have hview : (tracked cfg).view (.pending (.mkd d) []) (.addDirectory d) added =
        .done (mkdAnswer cfg d added++[]) := by
      simp [tracked, discipline, advance, queries, queryPoint]
    rw [hview]
    have hsent := keeps_done cfg hsize []
    cases added with
    | true => exact keeps_directory cli (done_unbroken _) hsent
    | false => exact keeps_message cli (done_unbroken _) hsent

theorem keeps_rmd {cfg : Config} (cli : Client) (hl : cli.logged = true) (d : Text) :
    Keeps (tracked cfg) (fun _ l => l = .done []) (fun _ l => Unbroken l)
      (sendResponse cfg cli (.rmd d)) (.pending (.rmd d) []) := by
  rw [sendResponse, rmdSendResponse, whenLogged, if_pos hl]
  constructor
  · refine ⟨pending_unbroken _ _,fun _ => ⟨.rmd d,[],rfl,fun removed => ?_⟩⟩
    simp [queries, queryPoint]
  · intro removed hsize
    have hview : (tracked cfg).view (.pending (.rmd d) []) (.removeDirectory d) removed =
        .done (rmdAnswer cfg d removed++[]) := by
      simp [tracked, discipline, advance, queries, queryPoint]
    rw [hview]
    have hsent := keeps_done cfg hsize []
    cases removed with
    | true => exact keeps_directory cli (done_unbroken _) hsent
    | false => exact keeps_message cli (done_unbroken _) hsent

theorem idle_quiet (cfg : Config) : Quiet (tracked cfg) .idle .invalid := by
  intro op hop
  cases op with
  | sendString t =>
    constructor
    · exact ⟨nofun,fun hchanges => hchanges.elim⟩
    · intro returned _
      cases returned <;> rfl
  | receiveString => cases hop
  | note e => cases hop
  | addDirectory d => cases hop
  | removeDirectory d => cases hop
  | directoriesSize => cases hop
  | getList => cases hop

theorem keeps_tracked {cfg : Config} (query : Text) (cli : Client) :
    Keeps (tracked cfg) (fun _ l => l = .idle) (fun _ l => Unbroken l) (answerQuery cfg query cli)
      .idle := by
  have hhandled : ∀ l, l = .idle ∨ l = .done [] → ∀ cli',
      Keeps (tracked cfg) (fun (_ : Client) l => l = .idle) (fun (_ : Halt) l => Unbroken l)
        (.call (.note (.handled cli')) fun _ => .ret cli') l := by
    intro l hl cli'
    rcases hl with rfl | rfl
    · exact ⟨⟨nofun,fun hchanges => hchanges.elim⟩,fun _ _ => rfl⟩
    · exact ⟨⟨nofun,fun hchanges => hchanges.elim⟩,fun _ _ => rfl⟩
  constructor
  · exact ⟨nofun,fun hchanges => hchanges.elim⟩
  · intro _ hsized
    rw [respondQuery]
    cases hc : createCommand query with
    | error e =>
      change Unbroken (advance (queries cfg) .idle (.note (.received cli query)) ())
      simp [Unbroken, advance, queries, queryLabel, queryOf, hc]
    | ok cmd =>
      apply keeps_bind
      by_cases hplain : cli.logged = false ∨ usesDirectories cmd = false
      · have hnone : queryOf cli query = none := by
          rw [queryOf, hc]
          rcases hplain with hl | hu
          · simp [hl]
          · cases cmd <;> simp_all [usedBy, usesDirectories]
        have hview : (tracked cfg).view .idle (.note (.received cli query)) () = .idle := by
          simp [tracked, discipline, advance, queries, queryLabel, hnone]
        rw [hview]
        apply keeps_mono _ _ (keeps_plain cfg (idle_quiet cfg) cli hplain)
        · intro cli' l h
          exact hhandled l (.inl h.1) cli'
        · intro e l h
          rw [h.1]
          exact nofun
      · obtain ⟨hl,hu⟩ := not_or.mp hplain
        rw [Bool.not_eq_false] at hl
        have hsome : queryOf cli query = usedBy cmd := by rw [queryOf, hc]; simp [hl]
        have hview : ∀ x, usedBy cmd = some x →
            (tracked cfg).view .idle (.note (.received cli query)) () = .pending x [] := by
          intro x hx
          simp [tracked, discipline, advance, queries, queryLabel, hsome, hx]
        have hdone : ∀ (cli' : Client) (l : Phase Query UInt8), l = .done [] →
            Keeps (tracked cfg) (fun (_ : Client) l => l = .idle) (fun (_ : Halt) l => Unbroken l)
              (.call (.note (.handled cli')) fun _ => .ret cli') l :=
          fun cli' l h => hhandled l (.inr h) cli'
        cases cmd with
        | list =>
          obtain ⟨hbegin,hend⟩ := hsized hsome
          rw [hview .list rfl]
          exact keeps_mono hdone (fun _ _ h => h) (keeps_list cli hl hbegin hend)
        | mkd d =>
          rw [hview (.mkd d) rfl]
          exact keeps_mono hdone (fun _ _ h => h) (keeps_mkd cli hl d)
        | rmd d =>
          rw [hview (.rmd d) rfl]
          exact keeps_mono hdone (fun _ _ h => h) (keeps_rmd cli hl d)
        | _ => exact absurd rfl hu

theorem tracked_session (cfg : Config) (n : ℕ) :
    Keeps (tracked cfg) (fun _ l => Unbroken l) (fun _ l => Unbroken l) (respondClient cfg n)
      .idle := by
  apply keeps_session (J := fun _ l => l = .idle)
  · apply keeps_mono (fun _ _ h => h) _ (keeps_sendHello cfg (idle_quiet cfg))
    intro e l h
    rw [h.1]
    exact nofun
  · intro l hl
    apply keeps_loop
    · intro cli l h _
      rw [h]
      exact ⟨nofun,fun hchanges => hchanges.elim⟩
    · intro cli l query h _ _ _
      rw [h]
      exact keeps_tracked query cli
    · intro cli l query h _ _ _
      rw [h]
      rfl
    · intro cli l h
      rw [h]
      exact nofun
    · exact hl
  · intro cli l h _
    rw [h]
    exact nofun
  · intro l h
    exact h

section Listing
variable {d : Text} (hd : 2 ≤ d.length)
include hd

theorem listing_calls :
    queryCalls namesConfig ((listingCalls d).map fun e => ((),e)) =
      [⟨(),.mkd d,transmitted (replyDir namesConfig idMkdSuccess d msgMkdSuccess),10,some 13⟩,
        ⟨(),.list,transmitted (text "150 listBegin\n")++transmitted (dirFormat++d)++
          transmitted (text "226 listEnd\n"),15,some 21⟩] := by
  have huser : queryOf Client.new (text "USER user\n") = none := by decide
  have hpass : queryOf ⟨false,false,text "user\n"⟩ (text "PASS password\n") = none := by decide
  have hmkd : queryOf member (text "MKD "++d) = some (.mkd d) := by
    rw [queryOf, create_listed hd]
    rfl
  have hlist : queryOf member (text "LIST\n") = some .list := by decide
  simp [queryCalls, callsOf, listingCalls, queries, queryLabel, record, touch, Call.extend,
    Call.close, huser, hpass, hmkd, hlist]

end Listing

variable {ι : Type} [DecidableEq ι]

/-- In every run whose answers all fit, the queries on the directories have a
sequential order that agrees with real time, gives every client the bytes it was
sent and leads to the same set. For every name, successful `MKD` and `RMD` take
turns, and the name is present when the last one was an `MKD`. -/
theorem directories_linearizable {cfg : Config} {n : ι → ℕ} {q : ServerPool ι}
    (h : Reaches (fitting cfg) (serverStart cfg ∅ n) q) :
    ∃ order, Linearizes (setAnswers cfg) (queryCalls cfg q.trace) ∅ q.shared order ∧
      ∀ d, (false::successes d ∅ (order.map Call.input)).IsChain (· ≠ ·) ∧
        (d ∈ q.shared ↔ (successes d ∅ (order.map Call.input)).getLast? = some true) := by
  obtain ⟨order,horder⟩ := linearizable (queries_sound cfg) (fitting_sized cfg)
    (fun i => tracked_session cfg (n i)) h
  refine ⟨order,horder,fun d => ?_⟩
  obtain ⟨hchain,hlast⟩ := successes_alternate cfg d horder.replay
  refine ⟨by simpa using hchain,?_⟩
  rw [List.getLast?_cons] at hlast
  cases hs : (successes d ∅ (order.map Call.input)).getLast? with
  | none => simpa [hs] using hlast
  | some b =>
    rw [hs, Option.getD_some, Option.some.injEq] at hlast
    rw [hlast]
    simp

theorem listing_fits :
    Replays (fitting namesConfig) ∅ (listingCalls (text "foo\n")) {text "foo\n"} := by
  have huser : IsLine (text "USER user\n") := ⟨text "USER user",by decide,by decide⟩
  have hpass : IsLine (text "PASS password\n") := ⟨text "PASS password",by decide,by decide⟩
  have hmkd : IsLine (text "MKD foo\n") := ⟨text "MKD foo",by decide,by decide⟩
  have hlist : IsLine (text "LIST\n") := ⟨text "LIST",by decide,by decide⟩
  have hnote : ∀ cli query, Fits namesConfig ∅ (.note (.received cli query)) :=
    fun cli query _ => by decide
  have hadd : (true,{text "foo\n"}) = addDirectory ∅ (text "foo\n") := by simp [addDirectory]
  have hsize : (1:ℤ) = directoriesSize {text "foo\n"} := by decide
  have hmade : Fits namesConfig ∅ (.addDirectory (text "foo\n")) := by
    simp only [Fits]
    decide
  have hpos : Fits namesConfig {text "foo\n"} .directoriesSize := .inr (by decide)
  have hget : dirFormat++text "foo\n" = getList {text "foo\n"} := (getList_singleton _).symm
  have hsmall : Fits namesConfig {text "foo\n"} .getList := by
    simp only [Fits, listingSize, Finset.sum_singleton]
    decide
  exact .step _ _ ⟨rfl,trivial⟩ <| .step _ _ ⟨⟨huser,rfl⟩,trivial⟩ <| .step _ _ ⟨rfl,hnote _ _⟩ <|
    .step _ _ ⟨rfl,trivial⟩ <| .step _ _ ⟨rfl,trivial⟩ <| .step _ _ ⟨⟨hpass,rfl⟩,trivial⟩ <|
    .step _ _ ⟨rfl,hnote _ _⟩ <| .step _ _ ⟨rfl,trivial⟩ <| .step _ _ ⟨rfl,trivial⟩ <|
    .step _ _ ⟨⟨hmkd,rfl⟩,trivial⟩ <| .step _ _ ⟨rfl,hnote _ _⟩ <| .step _ _ ⟨hadd,hmade⟩ <|
    .step _ _ ⟨rfl,trivial⟩ <| .step _ _ ⟨rfl,trivial⟩ <| .step _ _ ⟨⟨hlist,rfl⟩,trivial⟩ <|
    .step _ _ ⟨rfl,hnote _ _⟩ <| .step _ _ ⟨rfl,trivial⟩ <| .step _ _ ⟨⟨hsize,rfl⟩,hpos⟩ <|
    .step _ _ ⟨⟨hget,rfl⟩,hsmall⟩ <| .step _ _ ⟨rfl,trivial⟩ <| .step _ _ ⟨rfl,trivial⟩ <|
    .step _ _ ⟨rfl,trivial⟩ <| .none _

theorem directories_linearizable_list :
    ∃ q : ServerPool Unit, Reaches (fitting namesConfig) (serverStart namesConfig ∅ fun _ => 4) q ∧
      q.shared = {text "foo\n"} ∧
      ∃ order, Linearizes (setAnswers namesConfig) (queryCalls namesConfig q.trace) ∅
        {text "foo\n"} order := by
  obtain ⟨x,hperf⟩ := performs_listing (d := text "foo\n") (by decide)
  obtain ⟨q,hq,_,hshared,_⟩ := reaches_performed hperf listing_fits
  obtain ⟨order,horder,_⟩ := directories_linearizable hq
  exact ⟨q,hq,hshared,order,hshared ▸ horder⟩

theorem listing_order {a b : Call Unit Query UInt8} {s s' : Directories}
    {order : List (Call Unit Query UInt8)} {cfg : Config} (ha : a.ended ≠ none)
    (hb : b.ended ≠ none) (hab : Precedes a b) (hne : a ≠ b)
    (h : Linearizes (setAnswers cfg) [a,b] s s' order) : order = [a,b] := by
  have hperm : order.Perm [a,b] := by
    apply (List.perm_ext_iff_of_nodup h.distinct (by simpa using hne)).mpr
    intro c
    constructor
    · exact h.made c
    · intro hc
      rcases List.mem_pair.mp hc with rfl | rfl
      · exact h.complete _ hc ha
      · exact h.complete _ hc hb
  have hreal := h.realTime
  obtain ⟨x,y,rfl⟩ := List.length_eq_two.mp hperm.length_eq
  have hx := h.made x (by simp)
  have hy := h.made y (by simp)
  have hdistinct : x ≠ y := by simpa using h.distinct
  have hnot : ¬ Precedes y x := by simpa using hreal
  rcases List.mem_pair.mp hx with rfl | rfl
  · rcases List.mem_pair.mp hy with rfl | rfl
    · exact absurd rfl hdistinct
    · rfl
  · rcases List.mem_pair.mp hy with rfl | rfl
    · exact absurd hab hnot
    · exact absurd rfl hdistinct

/-- A name so long that `int` takes the length of the listing for a negative
number: the client that made the directory is sent an empty list. -/
theorem listing_lost :
    ∃ q : ServerPool Unit, Reaches directories (serverStart namesConfig ∅ fun _ => 4) q ∧
      ¬ ∃ order, Linearizes (setAnswers namesConfig) (queryCalls namesConfig q.trace) ∅ q.shared
        order := by
  obtain ⟨d,hline,hlen⟩ : ∃ d, IsLine d ∧ d.length = 2^31-29 := by
    refine ⟨List.replicate (2^31-30) 97++[newline],⟨_,?_,rfl⟩,?_⟩
    · intro h
      exact absurd (List.eq_of_mem_replicate h) (by decide)
    · rw [List.length_append, List.length_replicate, List.length_singleton]
      norm_num
  have hd : 2 ≤ d.length := by omega
  obtain ⟨x,hperf⟩ := performs_listing hd
  obtain ⟨q,hq,htrace,hshared,_⟩ := reaches_performed hperf (listing_served hd hline)
  refine ⟨q,hq,?_⟩
  rintro ⟨order,h⟩
  rw [htrace, hshared, listing_calls hd] at h
  have horder := listing_order (by simp) (by simp) ⟨13,rfl,by norm_num⟩ (by simp) h
  have hreplay := h.replay
  rw [horder] at hreplay
  obtain ⟨_,⟨_,hanswer⟩,_⟩ := hreplay
  have hformat : dirFormat.length = 41 := by decide
  have hgone : transmitted (dirFormat++d) = [] := by
    apply transmitted_wraps
    · rw [List.length_append]
      omega
    · rw [List.length_append]
      omega
  have hsame : transmitted (text "150 listBegin\n")++transmitted (dirFormat++d)++
      transmitted (text "226 listEnd\n") = listAnswer namesConfig (getList {d}) :=
    hanswer (by simp)
  have hbegin : (reply namesConfig idListBegin msgListBegin).length = 14 := by decide
  have hend : (reply namesConfig idListEnd msgListEnd).length = 12 := by decide
  have hbegin' : (text "150 listBegin\n").length = 14 := by decide
  have hend' : (text "226 listEnd\n").length = 12 := by decide
  rw [hgone, transmitted_small (by decide), transmitted_small (by decide), getList_singleton] at hsame
  have hlengths := congrArg List.length hsame
  simp only [listAnswer, List.length_append, List.length_nil, hbegin, hend, hbegin', hend',
    hformat] at hlengths
  omega

end Workshop.FtpLinear
