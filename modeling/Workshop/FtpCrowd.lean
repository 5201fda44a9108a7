import Workshop.FtpSession

/-!
# Many clients at one server

Every client has its own connection and its own thread of the server. They
share the directories, and the calls on these have one order. A client sees
nothing of the others but the sets its own calls find.
-/

set_option autoImplicit false

namespace Workshop.FtpCrowd
open Workshop.CMemory Workshop.InteractiveProgram Workshop.ByteChannel Workshop.HalfDuplex
open Workshop.FtpConfig Workshop.FtpCommand Workshop.FtpDirectories Workshop.FtpServer
open Workshop.FtpNetwork Workshop.FtpNames Workshop.FtpClient Workshop.FtpLockstep
open Workshop.FtpExchange Workshop.FtpSession

section Facing
variable {σ τ : Type}

def facing (s : τ) (u : System terminal server Unit Unit Console σ) :
    System terminal server Unit Unit Console τ :=
  ⟨u.left,⟨u.right.program,s,u.right.closed⟩,u.toLeft,u.toRight⟩

theorem answers_facing (E : Surroundings σ) (E' : Surroundings τ) (op : ServerOp) (s : σ) :
    ((E.answers op s).2 = s ∧ ∀ s', E'.answers op s' = ((E.answers op s).1,s')) ∨
    ((E.answers op s).2 = E.after op s ∧ ∀ s', E'.set s' = E.set s →
      E'.answers op s' = ((E.answers op s).1,E'.after op s')) := by
  cases op with
  | receiveString => exact .inl ⟨rfl,fun _ => rfl⟩
  | sendString t => exact .inl ⟨rfl,fun _ => rfl⟩
  | note n => exact .inl ⟨rfl,fun _ => rfl⟩
  | addDirectory d => exact .inr ⟨rfl,fun s' hs => by rw [Surroundings.answers, hs]; rfl⟩
  | removeDirectory d => exact .inr ⟨rfl,fun s' hs => by rw [Surroundings.answers, hs]; rfl⟩
  | directoriesSize => exact .inr ⟨rfl,fun s' hs => by rw [Surroundings.answers, hs]; rfl⟩
  | getList => exact .inr ⟨rfl,fun s' hs => by rw [Surroundings.answers, hs]; rfl⟩

theorem step_facing (E : Surroundings σ) (E' : Surroundings τ) {ρ : Type}
    {u : System terminal server Unit Unit Console ρ}
    {v : System terminal server Unit Unit Console σ} {s : σ}
    (h : Step console (answering E.answers) (facing s u) v) :
    (v.right.state = s ∧ ∀ s', Step console (answering E'.answers) (facing s' u) (facing s' v)) ∨
    ∃ op, v.right.state = E.after op s ∧ ∀ s', E'.set s' = E.set s →
      Step console (answering E'.answers) (facing s' u) (facing (E'.after op s') v) := by
  obtain ⟨l,⟨p,t,closed⟩,i,o⟩ := u
  cases h with
  | left hact => exact .inl ⟨rfl,fun s' => .left hact⟩
  | right hact =>
    dsimp only [facing] at hact
    cases hact with
    | receive hlen hne hin => exact .inl ⟨rfl,fun s' => .right (.receive hlen hne hin)⟩
    | finish hend hin => exact .inl ⟨rfl,fun s' => .right (.finish hend hin)⟩
    | send hle hpos => exact .inl ⟨rfl,fun s' => .right (.send hle hpos)⟩
    | receiveClosed => exact .inl ⟨rfl,fun s' => .right .receiveClosed⟩
    | sendClosed => exact .inl ⟨rfl,fun s' => .right .sendClosed⟩
    | shutdown => exact .inl ⟨rfl,fun s' => .right .shutdown⟩
    | @other op next _ s1 _ _ _ r hop =>
      cases hop
      rcases answers_facing E E' op s with ⟨hsame,hall⟩ | ⟨hafter,hall⟩
      · refine .inl ⟨hsame,fun s' => .right (.other ?_)⟩
        rw [answering, hall]
      · refine .inr ⟨op,hafter,fun s' hs => .right (.other ?_)⟩
        rw [answering, hall s' hs]
    | halt hop => exact absurd (congrArg Prod.fst hop) (answering_ok _ _ _ _)

theorem step_enabled (E : Surroundings σ) (E' : Surroundings τ) {ρ : Type}
    {u : System terminal server Unit Unit Console ρ}
    {v : System terminal server Unit Unit Console σ} {s : σ}
    (h : Step console (answering E.answers) (facing s u) v) (s' : τ) :
    ∃ w, Step console (answering E'.answers) (facing s' u) w := by
  obtain ⟨l,⟨p,t,closed⟩,i,o⟩ := u
  cases h with
  | left hact => exact ⟨_,.left hact⟩
  | right hact =>
    dsimp only [facing] at hact
    cases hact with
    | receive hlen hne hin => exact ⟨_,.right (.receive hlen hne hin)⟩
    | finish hend hin => exact ⟨_,.right (.finish hend hin)⟩
    | send hle hpos => exact ⟨_,.right (.send hle hpos)⟩
    | receiveClosed => exact ⟨_,.right .receiveClosed⟩
    | sendClosed => exact ⟨_,.right .sendClosed⟩
    | shutdown => exact ⟨_,.right .shutdown⟩
    | other hop => exact ⟨_,.right (.other rfl)⟩
    | halt hop => exact ⟨_,.right (.other rfl)⟩

end Facing

structure Register (ι : Type) where
  directories : Directories
  order : List (ι × ServerOp)

variable {ι : Type}

def caller (i : ι) : Surroundings (Register ι) where
  set s := s.directories
  after op s := ⟨alone.after op s.directories,s.order++[(i,op)]⟩

structure Crowd (ι : Type) where
  pair : ι → System terminal server Unit Unit Console Unit
  register : Register ι

section Steps
variable [DecidableEq ι]

/-- One call of a client or of a thread of the server. -/
inductive CrowdStep (v : Crowd ι) : Crowd ι → Prop
  | turn (i : ι) {u : System terminal server Unit Unit Console (Register ι)}
      (h : Step console (answering (caller i).answers) (facing v.register (v.pair i)) u) :
      CrowdStep v ⟨Function.update v.pair i (facing () u),u.right.state⟩

def opened (stray : Text → ℕ → UInt8) (cfg : Config) (n : ℕ) (typed : ι → List Text) : Crowd ι :=
  ⟨fun i => connected stray cfg n (typed i) (),⟨∅,[]⟩⟩

def made (s : Directories) (order : List (ι × ServerOp)) : Directories :=
  order.foldl (fun s e => alone.after e.2 s) s

/-- The sets which the calls of a client find. -/
def sights (i : ι) : Directories → List (ι × ServerOp) → List Directories
  | _, [] => []
  | s, e::order =>
    if e.1 = i then s::sights i (alone.after e.2 s) order else sights i (alone.after e.2 s) order

def callsOf (i : ι) (order : List (ι × ServerOp)) : List ServerOp :=
  (order.filter (·.1 = i)).map (·.2)

def expecting (sets : List Directories) (calls : List ServerOp) : Meeting :=
  ⟨fun k => sets.getD k ∅,calls⟩

theorem sights_made {i : ι} {s x : Directories} {order : List (ι × ServerOp)}
    (h : x ∈ sights i s order) : ∃ before e after, order = before++e::after ∧ x = made s before := by
  induction order generalizing s with
  | nil => cases h
  | cons e order ih =>
    have hlater (h : x ∈ sights i (alone.after e.2 s) order) :
        ∃ before e' after, e::order = before++e'::after ∧ x = made s before := by
      obtain ⟨before,e',after,rfl,rfl⟩ := ih h
      exact ⟨e::before,e',after,rfl,rfl⟩
    rw [sights] at h
    split at h
    · rcases List.mem_cons.mp h with rfl | h
      · exact ⟨[],e,order,rfl,rfl⟩
      · exact hlater h
    · exact hlater h

def Register.extended (r : Register ι) (order : List (ι × ServerOp)) : Register ι :=
  ⟨made r.directories order,r.order++order⟩

/-- A step of the crowd is a step of one session, which finds the directories as
they are when it makes a call on them. -/
theorem crowd_cases {v w : Crowd ι} (h : CrowdStep v w) :
    ∃ j, (∀ i, i ≠ j → w.pair i = v.pair i) ∧
      ((w.register = v.register ∧ ∀ s, Step console (answering meeting.answers)
          (facing s (v.pair j)) (facing s (w.pair j))) ∨
        ∃ op, w.register = (caller j).after op v.register ∧
          ∀ s, s.sets 0 = v.register.directories → Step console (answering meeting.answers)
            (facing s (v.pair j)) (facing (meeting.after op s) (w.pair j))) := by
  cases h with
  | @turn j u hturn =>
    refine ⟨j,fun i hi => Function.update_of_ne hi _ _,?_⟩
    dsimp only
    rw [Function.update_self]
    exact step_facing (caller j) meeting hturn

/-- What a run of the crowd is to one of the clients: the run of a session that
finds just these sets. By induction on the run, from its first step. -/
theorem crowd_sights {v w : Crowd ι} (h : Relation.ReflTransGen CrowdStep v w) :
    ∃ order, w.register = v.register.extended order ∧ ∀ i calls,
      Relation.ReflTransGen (Step console (answering meeting.answers))
        (facing (expecting (sights i v.register.directories order) calls) (v.pair i))
        (facing (expecting [] (calls++callsOf i order)) (w.pair i)) := by
  induction h using Relation.ReflTransGen.head_induction_on with
  | refl =>
    refine ⟨[],?_,?_⟩
    · simp [Register.extended, made]
    · intro i calls
      simp [callsOf, sights]
      exact .refl
  | @head v v' hstep _ ih =>
    obtain ⟨order,hregister,hpairs⟩ := ih
    obtain ⟨j,hothers,⟨hsame,hturn⟩ | ⟨op,hafter,hturn⟩⟩ := crowd_cases hstep
    · rw [hsame] at hregister hpairs
      refine ⟨order,hregister,fun i calls => ?_⟩
      by_cases hi : i = j
      · subst hi
        exact (hpairs i calls).head (hturn _)
      · rw [← hothers i hi]
        exact hpairs i calls
    · rw [hafter] at hregister hpairs
      refine ⟨(j,op)::order,?_,fun i calls => ?_⟩
      · rw [hregister]
        simp [Register.extended, caller, made]
      · by_cases hi : i = j
        · subst hi
          have hcalls : calls++callsOf i ((i,op)::order) = calls++[op]++callsOf i order := by
            simp [callsOf]
          rw [sights, if_pos rfl, hcalls]
          exact (hpairs i (calls++[op])).head (hturn (expecting (_::_) calls) rfl)
        · have hne : j ≠ i := fun h => hi h.symm
          have hcalls : callsOf i ((j,op)::order) = callsOf i order := by simp [callsOf, hne]
          rw [sights, if_neg hne, hcalls, ← hothers i hi]
          exact hpairs i calls

end Steps

def directoryOf (line : Text) : Option Text :=
  match createCommand (line++[newline]) with
  | .ok (.mkd d) => some d
  | _ => none

def makeable (lines : List Text) : Directories := (lines.filterMap directoryOf).toFinset

theorem directoryOf_eq {line d : Text} :
    directoryOf line = some d ↔ createCommand (line++[newline]) = .ok (.mkd d) := by
  rw [directoryOf]
  split
  · rename_i d' h
    rw [h]
    simp
  · rename_i h
    constructor
    · intro hd
      cases hd
    · exact fun hd => absurd hd (h d)

theorem mem_makeable {lines : List Text} {d : Text} :
    d ∈ makeable lines ↔ ∃ line ∈ lines, createCommand (line++[newline]) = .ok (.mkd d) := by
  simp only [makeable, List.mem_toFinset, List.mem_filterMap, directoryOf_eq]

theorem used_calls {cli : Client} {cmd : Command} {s : Meeting} {d : Text}
    (h : .addDirectory d ∈ (meeting.used cli cmd s).calls) :
    .addDirectory d ∈ s.calls ∨ cmd = .mkd d := by
  by_cases hplain : cli.logged = false ∨ usesDirectories cmd = false
  · rw [used_plain meeting hplain] at h
    exact .inl h
  obtain ⟨hl,hu⟩ := not_or.mp hplain
  rw [Bool.not_eq_false] at hl hu
  cases cmd with
  | list =>
    simp only [Surroundings.used, hl] at h
    split at h <;> simpa [meeting] using h
  | mkd dirname =>
    simp only [Surroundings.used, hl] at h
    simpa [meeting, eq_comm] using h
  | rmd dirname =>
    simp only [Surroundings.used, hl] at h
    simpa [meeting] using h
  | _ => cases hu

theorem talk_makeable {cfg : Config} {s : Meeting} {done : List Text} {d : Text}
    (h : .addDirectory d ∈ (talk meeting cfg s done).state.calls) :
    .addDirectory d ∈ s.calls ∨ d ∈ makeable done := by
  induction done using List.reverseRecOn with
  | nil => exact .inl h
  | append_singleton done line ih =>
    have hmore (h : .addDirectory d ∈ (talk meeting cfg s done).state.calls) :
        .addDirectory d ∈ s.calls ∨ d ∈ makeable (done++[line]) := by
      refine (ih h).imp_right fun hd => ?_
      obtain ⟨line',hmem,hc⟩ := mem_makeable.mp hd
      exact mem_makeable.mpr ⟨line',List.mem_append_left _ hmem,hc⟩
    rw [talk_line, answered] at h
    split at h
    · rename_i cmd hc
      rcases used_calls h with h | rfl
      · exact hmore h
      · exact .inr (mem_makeable.mpr ⟨line,by simp,hc⟩)
    · exact hmore h

theorem run_calls {u v : System terminal server Unit Unit Console Meeting}
    (h : Relation.ReflTransGen (Step console (answering meeting.answers)) u v) :
    u.right.state.calls <+: v.right.state.calls := by
  apply RunAhead.right_extends Meeting.calls _ h
  intro op s
  cases op with
  | receiveString => exact List.prefix_refl _
  | sendString _ => exact List.prefix_refl _
  | note _ => exact List.prefix_refl _
  | addDirectory d => exact List.prefix_append s.calls [.addDirectory d]
  | removeDirectory d => exact List.prefix_append s.calls [.removeDirectory d]
  | directoriesSize => exact List.prefix_append s.calls [.directoriesSize]
  | getList => exact List.prefix_append s.calls [.getList]

theorem listing_mono {s t : Directories} (h : s ⊆ t) : listingSize s ≤ listingSize t :=
  Finset.sum_le_sum_of_subset h

theorem card_listing (s : Directories) : s.card ≤ listingSize s := by
  rw [← getList_size]
  exact getList_length s

theorem argument_length {q a : Text} {cmd : Command} (hc : createCommand q = .ok cmd)
    (ha : cmd.argument = some a) : a.length ≤ q.length := by
  rw [createCommand] at hc
  split at hc
  · cases hc
    rw [identify_argument _ _ a ha, List.length_drop]
    omega
  · obtain ⟨q',-,hc⟩ := bind_eq_ok hc
    cases hc
    rw [identify_argument _ _ a ha]
    exact Nat.zero_le _

theorem answer_within {cfg : Config} (hall : cfg.DefinesAll) {line : Text} {cmd : Command}
    (hc : createCommand (line++[newline]) = .ok cmd) {b : ℕ}
    (hb : ∀ key ∈ messageKeys, replySize cfg key+line.length+4 < b) (cli : Client)
    (s : Directories) : answerSize cfg cli s cmd < b := by
  have hmessage {key : Text} (hkey : key ∈ messageKeys) : replySize cfg key < b := by
    have := hb key hkey
    omega
  have hdirectory {key d : Text} (hkey : key ∈ messageKeys) (hd : cmd.argument = some d) :
      replyDirSize cfg d key < b := by
    have hlen := argument_length hc hd
    have := hb key hkey
    rw [List.length_append, List.length_singleton] at hlen
    rw [replySize] at this
    rw [replyDirSize]
    omega
  by_cases hplain : cli.logged = false ∨ usesDirectories cmd = false
  · obtain ⟨r,hr⟩ := plainReply_total (hall keyUser (by simp [messageKeys]))
      (hall keyPass (by simp [messageKeys])) cli cmd
    rw [(answer_plain s hplain hr).2]
    exact hmessage (plainReply_key hr)
  obtain ⟨hl,hu⟩ := not_or.mp hplain
  rw [Bool.not_eq_false] at hl hu
  cases cmd with
  | list =>
    have hsize : answerSize cfg cli s .list = replySize cfg msgNotLogged := by
      simp [answerSize, plainReply]
    rw [hsize]
    exact hmessage (by simp [messageKeys])
  | mkd d =>
    rw [(answer_mkd cfg s d hl).2]
    split
    · exact hmessage (by simp [messageKeys])
    · exact hdirectory (by simp [messageKeys]) rfl
  | rmd d =>
    rw [(answer_rmd cfg s d hl).2]
    split
    · exact hdirectory (by simp [messageKeys]) rfl
    · exact hmessage (by simp [messageKeys])
  | _ => cases hu

section Within
variable [Fintype ι]

def everything (typed : ι → List Text) : Directories :=
  Finset.univ.biUnion fun i => makeable (typed i)

/-- No answer has `b` bytes, whatever the directories are. -/
structure Within (cfg : Config) (typed : ι → List Text) (b : ℕ) : Prop where
  greeting : replySize cfg msgNewClient < b
  replies : ∀ i, ∀ line ∈ typed i, ∀ key ∈ messageKeys, replySize cfg key+line.length+4 < b
  listing : listingSize (everything typed)+2 < b

theorem makeable_everything (typed : ι → List Text) (i : ι) : makeable (typed i) ⊆ everything typed :=
  Finset.subset_biUnion_of_mem (fun i => makeable (typed i)) (Finset.mem_univ i)

variable {cfg : Config} {typed : ι → List Text} {i : ι} {line : Text}

theorem everything_names (h : ∀ i, ∀ line ∈ typed i, newline ∉ line ∧ line ≠ text "MKD") :
    Names (everything typed) := by
  intro d hd
  obtain ⟨i,-,hd⟩ := Finset.mem_biUnion.mp hd
  obtain ⟨line,hmem,hc⟩ := mem_makeable.mp hd
  obtain ⟨hline,hne⟩ := h i line hmem
  rcases create_mkd (answered_line hline) hc with ⟨hq,-⟩ | ⟨hd,hlen⟩
  · have hq : line++[newline] = text "MKD"++[newline] := hq
    exact absurd (List.append_cancel_right hq) hne
  · exact isName_line hd hlen

theorem answerable_within (hall : cfg.DefinesAll) (hb : Within cfg typed (2^31))
    (hmem : line ∈ typed i) (hne : line ≠ text "MKD") {t : Talk Meeting}
    (ht : ∀ k, t.state.sets k ⊆ everything typed) : Answerable meeting cfg t line := by
  constructor
  · rintro ⟨-,hq⟩
    have hq : line++[newline] = text "MKD"++[newline] := hq
    exact hne (List.append_cancel_right hq)
  · intro cmd hc
    by_cases hl : Lists t.cli cmd
    · have hreply {key : Text} (hkey : key ∈ messageKeys) : replySize cfg key < 2^31 := by
        have := hb.replies i line hmem key hkey
        omega
      rw [Whole, if_pos hl]
      refine ⟨hreply (by simp [messageKeys]),hreply (by simp [messageKeys]),fun hset => ?_⟩
      have hcard := card_listing (meeting.set t.state)
      have hsize := listing_mono (ht 0)
      have hsize' := listing_mono (ht 1)
      have hb := hb.listing
      have hpos := Finset.card_pos.mpr (Finset.nonempty_iff_ne_empty.mpr hset)
      change (meeting.set t.state).card ≤ listingSize (t.state.sets 0) at hcard
      constructor
      · left
        rw [narrow_small (by omega)]
        omega
      · exact lt_of_le_of_lt hsize' (by omega)
    · rw [Whole, if_neg hl]
      exact answer_within hall hc (hb.replies i line hmem) _ _

theorem room_within (hall : cfg.DefinesAll) (hvalues : ∀ key ∈ messageKeys, IsLine (cfg.value key))
    (hlines : ∀ i, ∀ line ∈ typed i, newline ∉ line ∧ line ≠ text "MKD") {n : ℕ}
    (hn : Within cfg typed n) (hmem : line ∈ typed i) {t : Talk Meeting}
    (ht : ∀ k, t.state.sets k ⊆ everything typed) : Room meeting cfg n t line := by
  have hreply (key : Text) (hkey : key ∈ messageKeys) :
      replySize cfg key+line.length+4 < n := hn.replies i line hmem key hkey
  have hlisting := hn.listing
  have hset (k : ℕ) : Names (t.state.sets k) := fun d hd => everything_names hlines d (ht k hd)
  have hsize := listing_mono (ht 1)
  refine ⟨?_,?_,?_⟩
  · have := hreply msgNotLogged (by simp [messageKeys])
    omega
  · intro cmd hc l hl
    rw [Surroundings.lines, answerLines] at hl
    split at hl
    · have hbegin := hreply msgListBegin (by simp [messageKeys])
      have hend := hreply msgListEnd (by simp [messageKeys])
      rcases List.mem_append.mp hl with hl | hl
      · rcases List.mem_cons.mp hl with rfl | hl
        · rw [reply_size cfg (by decide)]
          omega
        · have hle := (entries_lines (names_lined (hset 1)) (fun _ _ => 0) l hl).2.2
          rw [getList_size] at hle
          omega
      · rw [List.mem_singleton.mp hl, reply_size cfg (by decide)]
        omega
    · rename_i hlists
      obtain ⟨hline,hne⟩ := hlines i line hmem
      have hplain := answer_plain_line hvalues hall hlists (names_lined (hset 0)) fun _ d hd => by
        subst hd
        exact everything_names hlines d
          (makeable_everything typed i (mem_makeable.mpr ⟨line,hmem,hc⟩))
      rw [List.mem_singleton.mp hl]
      change (answerLine cfg t.cli (t.state.sets 0) cmd).length < n
      rw [hplain.size]
      exact answer_within hall hc (hn.replies i line hmem) _ _
  · intro cmd hc
    rw [Surroundings.lines, answerLines]
    split
    · have hcount := entries_length (meeting.set t.state) (t.state.sets 1)
      have hcard := card_listing (t.state.sets 1)
      simp only [List.length_append, List.length_cons, List.length_nil]
      change (entries (meeting.set t.state) (t.state.sets 1)).length+1+(0+1) < n
      omega
    · have := hreply msgNotLogged (by simp [messageKeys])
      rw [List.length_singleton]
      omega

end Within

section Runs
variable [Fintype ι] [DecidableEq ι] {cfg : Config} {typed : ι → List Text} {n : ℕ}
  {stray : Text → ℕ → UInt8} (hall : cfg.DefinesAll)
  (hvalues : ∀ key ∈ messageKeys, IsLine (cfg.value key))
  (hlines : ∀ i, ∀ line ∈ typed i, newline ∉ line ∧ line ≠ text "MKD")
  (hfit : Within cfg typed (2^31)) (hroom : Within cfg typed n)
  (hturns : ∀ i, (typed i).length+1 < n)
include hall hvalues hlines hfit hroom hturns

omit [DecidableEq ι] in
variable (stray) in
theorem ends_meeting (i : ι) {s : Meeting} (hs : ∀ k, s.sets k ⊆ everything typed) :
    Ends (Step console (answering meeting.answers)) (Good meeting cfg s (typed i))
      (Settled meeting cfg s (typed i)) (connected stray cfg n (typed i) s) := by
  have hnamed : meeting.Named fun s => ∀ k, s.sets k ⊆ everything typed :=
    meeting_named fun s hs d hd => everything_names hlines d (Finset.mem_of_subset hs hd)
  have hmem {done : List Text} {line : Text} (h : done++[line] <+: served (typed i)) :
      ∀ l ∈ done++[line], l ∈ typed i :=
    fun l hl => (served_initial (typed i)).subset (h.subset hl)
  have htalk {done : List Text} (h : ∀ line ∈ done, line ∈ typed i) :
      ∀ k, (talk meeting cfg s done).state.sets k ⊆ everything typed := by
    induction done using List.reverseRecOn with
    | nil => exact hs
    | append_singleton done line ih =>
      have hline := h line (by simp)
      obtain ⟨cmd,hc⟩ := create_total (show line++[newline] ≠ [] by simp)
      apply talk_named cfg hnamed _ done hc _ (ih fun l hl => h l (List.mem_append_left _ hl))
      intro _ d hd
      subst hd
      exact everything_names hlines d (makeable_everything typed i (mem_makeable.mpr ⟨line,hline,hc⟩))
  have hsize : ∀ line ∈ typed i, newline ∉ line ∧ line.length+1 < 2^31 := by
    intro line hline
    have := hfit.replies i line hline msgNotLogged (by simp [messageKeys])
    exact ⟨(hlines i line hline).1,by omega⟩
  apply ends_connected stray hnamed hall hvalues hfit.greeting hs hsize _ _ (hturns i) hroom.greeting
  · intro done line h
    have hline := hmem h line (by simp)
    exact answerable_within hall hfit hline (hlines i line hline).2
      (htalk fun l hl => hmem h l (List.mem_append_left _ hl))
  · intro done line h
    exact room_within hall hvalues hlines hroom (hmem h line (by simp))
      (htalk fun l hl => hmem h l (List.mem_append_left _ hl))

omit [Fintype ι] [DecidableEq ι] hall hvalues hlines hfit hroom hturns in
theorem expecting_sets {all : Directories} {sets : List Directories} (hsets : ∀ s ∈ sets, s ⊆ all)
    (calls : List ServerOp) (k : ℕ) : (expecting sets calls).sets k ⊆ all := by
  show sets.getD k ∅ ⊆ all
  rcases Nat.lt_or_ge k sets.length with hk | hk
  · rw [List.getD_eq_getElem _ _ hk]
    exact hsets _ (List.getElem_mem hk)
  · rw [List.getD_eq_default _ _ hk]
    exact Finset.empty_subset _

omit [DecidableEq ι] in
variable (stray) in
theorem added_makeable (i : ι) {sets : List Directories} (hsets : ∀ s ∈ sets, s ⊆ everything typed)
    {u : System terminal server Unit Unit Console Meeting}
    (h : Relation.ReflTransGen (Step console (answering meeting.answers))
      (connected stray cfg n (typed i) (expecting sets [])) u) {d : Text}
    (hd : .addDirectory d ∈ u.right.state.calls) : d ∈ everything typed := by
  have hends := ends_meeting stray hall hvalues hlines hfit hroom hturns i
    (expecting_sets hsets [])
  obtain ⟨v,hv,hsettled⟩ := ends_final (ends_reachable hends h)
  have hlast := (run_calls hv).subset hd
  rw [hsettled.state] at hlast
  rcases talk_makeable hlast with hnone | hd
  · cases hnone
  · obtain ⟨line,hmem,hc⟩ := mem_makeable.mp hd
    exact makeable_everything typed i
      (mem_makeable.mpr ⟨line,(served_initial (typed i)).subset hmem,hc⟩)

omit hall hvalues hlines hfit hroom hturns [DecidableEq ι] in
theorem made_everything {s : Directories} (hs : s ⊆ everything typed) {order : List (ι × ServerOp)}
    (h : ∀ e ∈ order, ∀ d, e.2 = .addDirectory d → d ∈ everything typed) :
    made s order ⊆ everything typed := by
  induction order generalizing s with
  | nil => exact hs
  | cons e order ih =>
    obtain ⟨j,op⟩ := e
    apply ih _ fun e he => h e (List.mem_cons_of_mem _ he)
    have hop := h (j,op) List.mem_cons_self
    cases op with
    | addDirectory d =>
      simp only [alone, addDirectory_eq]
      exact Finset.insert_subset (hop d rfl) hs
    | removeDirectory d =>
      simp only [alone, removeDirectory_eq]
      exact (Finset.erase_subset _ _).trans hs
    | _ => exact hs

theorem register_legal {v : Crowd ι}
    (h : Relation.ReflTransGen CrowdStep (opened stray cfg n typed) v) :
    v.register.directories = made ∅ v.register.order ∧
    ∀ e ∈ v.register.order, ∀ d, e.2 = .addDirectory d → d ∈ everything typed := by
  induction h with
  | refl => exact ⟨rfl,fun e he => by cases he⟩
  | @tail v w hv hstep ih =>
    obtain ⟨hmade,hlegal⟩ := ih
    obtain ⟨order,hregister,hpairs⟩ := crowd_sights (hv.tail hstep)
    have horder : w.register.order = order := by
      rw [hregister]
      rfl
    refine ⟨by rw [horder, hregister]; rfl,?_⟩
    obtain ⟨j,-,⟨hsame,-⟩ | ⟨op,hafter,-⟩⟩ := crowd_cases hstep
    · rw [hsame]
      exact hlegal
    · have hlonger : order = v.register.order++[(j,op)] := by
        rw [← horder, hafter]
        rfl
      intro e he d hd
      rw [horder, hlonger] at he
      rcases List.mem_append.mp he with he | he
      · exact hlegal e he d hd
      · obtain rfl := List.mem_singleton.mp he
        have hsets : ∀ s ∈ sights j ∅ order, s ⊆ everything typed := by
          intro s hs
          obtain ⟨before,e,after,hsplit,rfl⟩ := sights_made hs
          have hinitial : before <+: v.register.order := by
            have hlen := congrArg List.length (hsplit.symm.trans hlonger)
            simp only [List.length_append, List.length_cons, List.length_nil] at hlen
            exact List.prefix_of_prefix_length_le ⟨e::after,hsplit.symm⟩
              (hlonger ▸ List.prefix_append _ _) (by omega)
          exact made_everything (Finset.empty_subset _) fun e he => hlegal e (hinitial.subset he)
        apply added_makeable stray hall hvalues hlines hfit hroom hturns j hsets
          (hpairs j [])
        change ServerOp.addDirectory d ∈ []++callsOf j order
        rw [hlonger]
        simpa [callsOf] using .inr hd.symm

theorem sights_everything {v : Crowd ι}
    (h : Relation.ReflTransGen CrowdStep (opened stray cfg n typed) v) (i : ι) :
    ∀ s ∈ sights i ∅ v.register.order, s ⊆ everything typed := by
  intro s hs
  obtain ⟨before,e,after,hsplit,rfl⟩ := sights_made hs
  apply made_everything (Finset.empty_subset _)
  intro e he
  apply (register_legal hall hvalues hlines hfit hroom hturns h).2 e
  rw [hsplit]
  exact List.mem_append_left _ he

theorem crowd_session {v : Crowd ι}
    (h : Relation.ReflTransGen CrowdStep (opened stray cfg n typed) v) (i : ι) :
    Ends (Step console (answering meeting.answers))
      (Good meeting cfg (expecting (sights i ∅ v.register.order) []) (typed i))
      (Settled meeting cfg (expecting (sights i ∅ v.register.order) []) (typed i))
      (facing (expecting [] (callsOf i v.register.order)) (v.pair i)) := by
  obtain ⟨order,hregister,hpairs⟩ := crowd_sights h
  have horder : v.register.order = order := by
    rw [hregister]
    rfl
  have hsets := sights_everything hall hvalues hlines hfit hroom hturns h i
  have hends := ends_meeting stray hall hvalues hlines hfit hroom hturns i
    (expecting_sets hsets [])
  rw [horder] at hends ⊢
  exact ends_reachable hends (hpairs i [])

/-- In every run of any number of clients, whatever its order, the screen of a
client shows the answers to the lines it has typed, where each call finds the
directories as the calls before it have left them. At the end all lines that
are served are answered, and the calls in the order are those of the talks. -/
theorem crowd_follows_order {v : Crowd ι}
    (h : Relation.ReflTransGen CrowdStep (opened stray cfg n typed) v) :
    v.register.directories = made ∅ v.register.order ∧
    ∀ i, (AtGetline (v.pair i).left.program →
        InStep meeting cfg (expecting (sights i ∅ v.register.order) []) (typed i)
          (facing (expecting [] (callsOf i v.register.order)) (v.pair i))) ∧
      ((∀ u, ¬ Step console (answering (caller i).answers) (facing v.register (v.pair i)) u) →
        Settled meeting cfg (expecting (sights i ∅ v.register.order) []) (typed i)
          (facing (expecting [] (callsOf i v.register.order)) (v.pair i))) := by
  refine ⟨(register_legal hall hvalues hlines hfit hroom hturns h).1,fun i => ?_⟩
  have hends := crowd_session hall hvalues hlines hfit hroom hturns h i
  refine ⟨ends_good hends,fun hrest => ends_rest hends fun u hu => ?_⟩
  obtain ⟨w,hw⟩ := step_enabled meeting (caller i) hu v.register
  exact hrest w hw

end Runs

theorem crowd_alone [DecidableEq ι] {v : Crowd ι} {i : ι}
    {u : System terminal server Unit Unit Console Directories}
    (h : Relation.ReflTransGen (Step console (answering alone.answers))
      (facing v.register.directories (v.pair i)) u) :
    ∃ w, Relation.ReflTransGen CrowdStep v w ∧ w.register.directories = u.right.state ∧
      w.pair = Function.update v.pair i (facing () u) := by
  induction h with
  | refl => exact ⟨v,.refl,rfl,(Function.update_eq_self i v.pair).symm⟩
  | @tail u u' _ hstep ih =>
    obtain ⟨w,hw,hdirectories,hpair⟩ := ih
    have hown : w.pair i = facing () u := by rw [hpair, Function.update_self]
    have hstep : Step console (answering alone.answers)
        (facing w.register.directories (w.pair i)) u' := by
      rw [hown, hdirectories]
      exact hstep
    rcases step_facing alone (caller i) hstep with ⟨hsame,hall⟩ | ⟨op,hafter,hall⟩
    · refine ⟨_,hw.tail (.turn i (hall w.register)),hsame.symm,?_⟩
      rw [hpair, Function.update_idem]
      rfl
    · refine ⟨_,hw.tail (.turn i (hall w.register rfl)),hafter.symm,?_⟩
      rw [hpair, Function.update_idem]
      rfl

def pairing : Bool → List Text
  | true => [text "USER user",text "PASS password",text "MKD foo"]
  | false => [text "USER user",text "PASS password",text "LIST"]

theorem pairing_within : Within namesConfig pairing (2^31) := ⟨by decide,by decide,by decide⟩

theorem within_mono [Fintype ι] {cfg : Config} {typed : ι → List Text} {b c : ℕ}
    (h : Within cfg typed b) (hle : b ≤ c) : Within cfg typed c where
  greeting := h.greeting.trans_le hle
  replies i line hline key hkey := (h.replies i line hline key hkey).trans_le hle
  listing := h.listing.trans_le hle

theorem pairing_answerable (b : Bool) {done : List Text} {line : Text}
    (h : done++[line] <+: served (pairing b)) :
    Answerable alone namesConfig
      (talk alone namesConfig (if b then ∅ else {text "foo\n"}) done) line := by
  have hserved : served (pairing b) = pairing b := by cases b <;> decide
  rw [hserved] at h
  obtain ⟨k,hk,rfl,hline⟩ := snoc_initial h
  match b, k, hk, hline with
  | true, 0, _, hline | false, 0, _, hline =>
    cases hline
    exact answerable_line (.user (text "user\n")) (by decide) (by decide) (by decide)
  | true, 1, _, hline | false, 1, _, hline =>
    cases hline
    exact answerable_line (.pass (text "password\n")) (by decide) (by decide) (by decide)
  | true, 2, _, hline =>
    cases hline
    exact answerable_line (.mkd (text "foo\n")) (by decide) (by decide) (by decide)
  | false, 2, _, hline =>
    cases hline
    exact answerable_line .list (by decide) (by decide) (by decide)

theorem pairing_session (b : Bool) {n : ℕ} (hn : 2^31 ≤ n)
    (hroom : room alone namesConfig (if b then ∅ else {text "foo\n"}) (pairing b) < n) :
    ∃ u, Relation.ReflTransGen (Step console (answering alone.answers))
      (connected (fun _ _ => 0) namesConfig n (pairing b) (if b then ∅ else {text "foo\n"})) u ∧
      Settled alone namesConfig (if b then ∅ else {text "foo\n"}) (pairing b) u := by
  have hnames : Names (if b then ∅ else {text "foo\n"}) := by
    intro d hd
    cases b with
    | true => exact absurd hd (Finset.notMem_empty d)
    | false => exact ⟨text "foo",by decide,by decide,Finset.mem_singleton.mp hd⟩
  have hlines : ∀ line ∈ pairing b, newline ∉ line ∧ line.length+1 < 2^31 := by
    cases b <;> decide
  have hlength : (pairing b).length+1 < 2^31 := by
    cases b <;> decide
  exact ends_final (ends_connected (fun _ _ => 0) alone_named namesConfig_defines namesConfig_lines
    pairing_within.greeting hnames hlines (fun _ _ h => pairing_answerable b h)
    (fun _ _ h => room_initial alone namesConfig _ h hroom) (hlength.trans_le hn)
    (pairing_within.greeting.trans_le hn))

theorem crowd_follows_order_pairing : ∃ n v,
    Relation.ReflTransGen CrowdStep (opened (fun _ _ => 0) namesConfig n pairing) v ∧
    made ∅ v.register.order = {text "foo\n"} ∧
    ∃ before, (v.pair false).left.state.printed =
      before++[text "150 listBegin\n",dirFormat++text "foo\n",text "226 listEnd\n"] := by
  obtain ⟨n,hn,htrue,hfalse⟩ : ∃ n, 2^31 ≤ n ∧ room alone namesConfig ∅ (pairing true) < n ∧
      room alone namesConfig {text "foo\n"} (pairing false) < n :=
    ⟨2^31+room alone namesConfig ∅ (pairing true)+
      room alone namesConfig {text "foo\n"} (pairing false)+1,by omega,by omega,by omega⟩
  obtain ⟨u,hu,hsettled⟩ := pairing_session true hn htrue
  obtain ⟨w,hw,hdirectories,hpair⟩ := crowd_alone
    (v := opened (fun _ _ => 0) namesConfig n pairing) (i := true) hu
  have hmade : u.right.state = {text "foo\n"} := by
    rw [hsettled.state]
    decide
  rw [hmade] at hdirectories
  have hsecond : facing w.register.directories (w.pair false) =
      connected (fun _ _ => 0) namesConfig n (pairing false) {text "foo\n"} := by
    rw [hdirectories, hpair, Function.update_of_ne (by decide)]
    rfl
  obtain ⟨u',hu',hsettled'⟩ := pairing_session false hn hfalse
  obtain ⟨v,hv,hdirectories',hpair'⟩ := crowd_alone (v := w) (i := false) (u := u') (by
    rw [hsecond]
    exact hu')
  have hlist : u'.right.state = {text "foo\n"} := by
    rw [hsettled'.state]
    decide
  have hlines : ∀ b, ∀ line ∈ pairing b, newline ∉ line ∧ line ≠ text "MKD" := by decide
  have hlength : ∀ b, (pairing b).length+1 < 2^31 := by decide
  have horder := (crowd_follows_order namesConfig_defines namesConfig_lines hlines pairing_within
    (within_mono pairing_within hn) (fun b => (hlength b).trans_le hn) (hw.trans hv)).1
  refine ⟨n,v,hw.trans hv,?_,?_⟩
  · rw [← horder, hdirectories', hlist]
  · have hsaid : (talk alone namesConfig {text "foo\n"} (served (pairing false))).said =
        [text "220 newClient\n",text "331 passRequired\n",text "230 loginSuccess\n"]++
          (text "150 listBegin\n"::entries {text "foo\n"} {text "foo\n"}++
            [text "226 listEnd\n"]) := by
      rfl
    have hentries : entries {text "foo\n"} {text "foo\n"} = [dirFormat++text "foo\n"] := by
      simp [entries, ordered]
    have hprinted : u'.left.state.printed =
        (talk alone namesConfig {text "foo\n"} (served (pairing false))).said := hsettled'.printed
    rw [hpair', Function.update_self]
    exact ⟨_,by rw [facing, hprinted, hsaid, hentries]; rfl⟩

end Workshop.FtpCrowd
