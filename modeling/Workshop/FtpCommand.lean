import Workshop.FtpConfig

/-!
# Commands of the file server

`create_command` splits a query at its first blank, but only when the query
has more than five characters. Shorter queries lose their last character and
have no argument. Replies are a code, a blank and a configured text.
-/

set_option autoImplicit false

namespace Workshop.FtpCommand
open Workshop.CMemory Workshop.FtpConfig

abbrev blank : UInt8 := 32

def cmdUser : Text := text "USER"
def cmdPass : Text := text "PASS"
def cmdSyst : Text := text "SYST"
def cmdList : Text := text "LIST"
def cmdHelp : Text := text "HELP"
def cmdPwd : Text := text "PWD"
def cmdMkd : Text := text "MKD"
def cmdRmd : Text := text "RMD"
def cmdQuit : Text := text "QUIT"

def idNewClient : Text := text "220"
def idNotLogged : Text := text "530"
def idPassRequired : Text := text "331"
def idLoginSuccess : Text := text "230"
def idLoginFailed : Text := text "530"
def idUnknown : Text := text "530"
def idSyst : Text := text "215"
def idHelp : Text := text "214"
def idListBegin : Text := text "150"
def idListEnd : Text := text "226"
def idPwd : Text := text "257"
def idMkdSuccess : Text := text "257"
def idMkdFailure : Text := text "550"
def idRmdSuccess : Text := text "250"
def idRmdFailure : Text := text "550"
def idQuit : Text := text "221"

inductive Command where
  | user (possibleUser : Text)
  | pass (possiblePass : Text)
  | syst
  | list
  | help
  | pwd
  | mkd (dirname : Text)
  | rmd (dirname : Text)
  | quit
  | invalid
  deriving DecidableEq, Repr

def identifyCommand (cmd arg : Text) : Command :=
  if cmd = cmdUser then .user arg
  else if cmd = cmdPass then .pass arg
  else if cmd = cmdSyst then .syst
  else if cmd = cmdList then .list
  else if cmd = cmdHelp then .help
  else if cmd = cmdPwd then .pwd
  else if cmd = cmdMkd then .mkd arg
  else if cmd = cmdRmd then .rmd arg
  else if cmd = cmdQuit then .quit
  else .invalid

/-- `pop_back`, which is undefined on an empty string. -/
def popBack (s : Text) : Except Halt Text :=
  if s = [] then .error (.fault .emptyText) else .ok s.dropLast

/-- `input.find(' ')+1`, where the sum wraps to zero when there is no blank. -/
def argumentStartPos (input : Text) : ℕ :=
  match input.findIdx? (· = blank) with
  | some k => k+1
  | none => 0

def createCommand (input : Text) : Except Halt Command :=
  if input.length > 5 then
    -- `substr(0, pos-1)` with `pos = 0` asks for the whole text
    .ok (identifyCommand
      (if argumentStartPos input = 0 then input else input.take (argumentStartPos input-1))
      (input.drop (argumentStartPos input)))
  else do
    let input ← popBack input
    .ok (identifyCommand input [])

def formatCmd (id message : Text) (cfg : Config) : Except Halt Text := do
  let m ← cfg.getMessage message
  .ok (id++text " "++m)

def formatCmdDir (id dir message : Text) (cfg : Config) : Except Halt Text := do
  let dir ← popBack dir
  let m ← cfg.getMessage message
  .ok (id++text " "++text "\""++dir++text "\" "++m)

def commandNames : List Text :=
  [cmdUser,cmdPass,cmdSyst,cmdList,cmdHelp,cmdPwd,cmdMkd,cmdRmd,cmdQuit]

def Command.name : Command → Option Text
  | .user _ => some cmdUser
  | .pass _ => some cmdPass
  | .syst => some cmdSyst
  | .list => some cmdList
  | .help => some cmdHelp
  | .pwd => some cmdPwd
  | .mkd _ => some cmdMkd
  | .rmd _ => some cmdRmd
  | .quit => some cmdQuit
  | .invalid => none

def Command.argument : Command → Option Text
  | .user arg => some arg
  | .pass arg => some arg
  | .mkd arg => some arg
  | .rmd arg => some arg
  | _ => none

theorem names_length : ∀ w ∈ commandNames, 3 ≤ w.length ∧ w.length ≤ 4 := by
  decide

theorem name_none {cmd : Command} (h : cmd.name = none) : cmd = .invalid := by
  cases cmd with
  | invalid => rfl
  | _ => cases h

theorem identify_name (cmd arg : Text) :
    (identifyCommand cmd arg).name = if cmd ∈ commandNames then some cmd else none := by
  by_cases h : cmd ∈ commandNames
  · rw [if_pos h]
    simp only [commandNames, List.mem_cons, List.not_mem_nil, or_false] at h
    rcases h with rfl | rfl | rfl | rfl | rfl | rfl | rfl | rfl | rfl <;> rfl
  · rw [if_neg h]
    simp only [commandNames, List.mem_cons, List.not_mem_nil, or_false, not_or] at h
    obtain ⟨h1,h2,h3,h4,h5,h6,h7,h8,h9⟩ := h
    simp only [identifyCommand, h1, h2, h3, h4, h5, h6, h7, h8, h9, if_false, Command.name]

theorem identify_unknown {cmd : Text} (h : cmd ∉ commandNames) (arg : Text) :
    identifyCommand cmd arg = .invalid := by
  apply name_none
  rw [identify_name, if_neg h]

theorem identify_long {cmd : Text} (h : 4 < cmd.length) (arg : Text) :
    identifyCommand cmd arg = .invalid := by
  apply identify_unknown
  intro hmem
  have hlen := (names_length cmd hmem).2
  omega

theorem identify_argument (cmd arg : Text) :
    ∀ a, (identifyCommand cmd arg).argument = some a → a = arg := by
  intro a ha
  by_cases h : cmd ∈ commandNames
  · have hcases : (identifyCommand cmd arg).argument = none ∨
        (identifyCommand cmd arg).argument = some arg := by
      simp only [commandNames, List.mem_cons, List.not_mem_nil, or_false] at h
      rcases h with rfl | rfl | rfl | rfl | rfl | rfl | rfl | rfl | rfl <;>
        first | exact .inl rfl | exact .inr rfl
    rcases hcases with hnone | hsome
    · rw [hnone] at ha
      cases ha
    · exact (Option.some.inj (hsome.symm.trans ha)).symm
  · rw [identify_unknown h] at ha
    cases ha

theorem identify_named {cmd arg name d : Text} (hname : (identifyCommand cmd arg).name = some name)
    (harg : (identifyCommand cmd arg).argument = some d) : cmd = name ∧ arg = d := by
  rw [identify_name] at hname
  split at hname
  · exact ⟨Option.some.inj hname,(identify_argument cmd arg d harg).symm⟩
  · cases hname

theorem identify_mkd {cmd arg d : Text} (h : identifyCommand cmd arg = .mkd d) :
    cmd = cmdMkd ∧ arg = d :=
  identify_named (by rw [h]; rfl) (by rw [h]; rfl)

theorem identify_rmd {cmd arg d : Text} (h : identifyCommand cmd arg = .rmd d) :
    cmd = cmdRmd ∧ arg = d :=
  identify_named (by rw [h]; rfl) (by rw [h]; rfl)

def IsLine (s : Text) : Prop := ∃ body, newline ∉ body ∧ s = body++[newline]

theorem isLine_nil : ¬ IsLine [] := by
  rintro ⟨body,-,h⟩
  simp at h

theorem lines_count_le {lines : List Text} (h : ∀ l ∈ lines, IsLine l) :
    lines.length ≤ lines.flatten.length := by
  induction lines with
  | nil => exact le_rfl
  | cons line lines ih =>
    obtain ⟨⟨body,-,rfl⟩,hlines⟩ := List.forall_mem_cons.mp h
    have hcount := ih hlines
    simp only [List.length_cons, List.flatten_cons, List.length_append, List.length_nil]
    omega

theorem argumentStart_split {w arg : Text} (hw : blank ∉ w) :
    argumentStartPos (w++blank::arg) = w.length+1 := by
  have hfind : (w++blank::arg).findIdx? (· = blank) = some w.length := by
    induction w with
    | nil => rfl
    | cons c w ih =>
      have hc : c ≠ blank := fun h => hw (by simp [h])
      have hrest := ih (fun h => hw (List.mem_cons_of_mem _ h))
      rw [List.cons_append, List.findIdx?_cons, hrest]
      simp [hc]
  rw [argumentStartPos, hfind]

theorem argumentStart_none {s : Text} (h : blank ∉ s) : argumentStartPos s = 0 := by
  have hfind : s.findIdx? (· = blank) = none := by
    apply List.findIdx?_eq_none_iff.mpr
    intro c hc
    have hne : c ≠ blank := fun hb => h (hb ▸ hc)
    simpa using hne
  rw [argumentStartPos, hfind]

theorem create_split {w arg : Text} (hw : blank ∉ w) (hlen : 5 < (w++blank::arg).length) :
    createCommand (w++blank::arg) = .ok (identifyCommand w arg) := by
  have hdrop : (w++blank::arg).drop (w.length+1) = arg := by simp [List.drop_append]
  rw [createCommand, if_pos hlen, argumentStart_split hw, if_neg (by omega), hdrop]
  simp

theorem create_unsplit {s : Text} (hs : blank ∉ s) (hlen : 5 < s.length) :
    createCommand s = .ok .invalid := by
  rw [createCommand, if_pos hlen, argumentStart_none hs, if_pos rfl,
    identify_long (by omega)]

theorem create_short {s : Text} (hs : s ≠ []) (hlen : s.length ≤ 5) :
    createCommand s = .ok (identifyCommand s.dropLast []) := by
  rw [createCommand, if_neg (by omega), popBack, if_neg hs]
  rfl

theorem first_blank {s : Text} (h : blank ∈ s) :
    ∃ w arg, blank ∉ w ∧ s = w++blank::arg := by
  obtain ⟨w,arg,hs,hw⟩ := List.eq_append_cons_of_mem h
  exact ⟨w,arg,hw,hs⟩

theorem create_total {s : Text} (hs : s ≠ []) : ∃ cmd, createCommand s = .ok cmd := by
  by_cases hlen : 5 < s.length
  · rw [createCommand, if_pos hlen]
    exact ⟨_,rfl⟩
  · exact ⟨_,create_short hs (by omega)⟩

theorem line_tail {c : UInt8} {s : Text} (h : IsLine (c::s)) (hs : s ≠ []) : IsLine s := by
  obtain ⟨body,hbody,heq⟩ := h
  cases body with
  | nil =>
    rw [List.nil_append, List.cons.injEq] at heq
    exact absurd heq.2 hs
  | cons b body =>
    rw [List.cons_append, List.cons.injEq] at heq
    exact ⟨body,fun hb => hbody (List.mem_cons_of_mem _ hb),heq.2⟩

theorem line_suffix {w s : Text} (h : IsLine (w++s)) (hs : s ≠ []) : IsLine s := by
  induction w with
  | nil => exact h
  | cons c w ih => exact ih (line_tail h (by simp [hs]))

theorem create_named {q name d : Text} {c : Command} (hname : name.length = 3)
    (hc : ∀ cmd arg, identifyCommand cmd arg = c → cmd = name ∧ arg = d)
    (hq : IsLine q) (h : createCommand q = .ok c) :
    (q = name++[newline] ∧ d = []) ∨ (IsLine d ∧ 2 ≤ d.length) := by
  by_cases hlen : 5 < q.length
  · right
    by_cases hb : blank ∈ q
    · obtain ⟨w,arg,hw,rfl⟩ := first_blank hb
      rw [create_split hw hlen, Except.ok.injEq] at h
      obtain ⟨rfl,rfl⟩ := hc w arg h
      have harg : 2 ≤ arg.length := by
        rw [List.length_append, List.length_cons] at hlen
        omega
      have hne : arg ≠ [] := by
        intro hnil
        simp [hnil] at harg
      constructor
      · apply line_suffix (w := w++[blank])
        · simpa using hq
        · exact hne
      · exact harg
    · rw [create_unsplit hb hlen, Except.ok.injEq] at h
      have hw := (hc q [] (by rw [identify_long (by omega), h])).1
      rw [hw] at hlen
      omega
  · left
    obtain ⟨body,hbody,rfl⟩ := hq
    rw [create_short (by simp) (by omega), Except.ok.injEq] at h
    obtain ⟨hcmd,rfl⟩ := hc _ _ h
    rw [List.dropLast_concat] at hcmd
    exact ⟨by rw [hcmd],rfl⟩

theorem create_mkd {q d : Text} (hq : IsLine q) (h : createCommand q = .ok (.mkd d)) :
    (q = text "MKD\n" ∧ d = []) ∨ (IsLine d ∧ 2 ≤ d.length) :=
  create_named (by decide) (fun _ _ => identify_mkd) hq h

theorem create_rmd {q d : Text} (hq : IsLine q) (h : createCommand q = .ok (.rmd d)) :
    (q = text "RMD\n" ∧ d = []) ∨ (IsLine d ∧ 2 ≤ d.length) :=
  create_named (by decide) (fun _ _ => identify_rmd) hq h

def queryWord (q : Text) : Text :=
  if blank ∈ q then q.takeWhile (· ≠ blank) else q.takeWhile (· ≠ newline)

def queryArgument (q : Text) : Text := (q.dropWhile (· ≠ blank)).tail

/-- The command is the one named by the first word, with the rest as argument. -/
structure SplitsAtBlank (q : Text) (cmd : Command) : Prop where
  named : ∀ w ∈ commandNames, cmd.name = some w ↔ queryWord q = w
  invalid : queryWord q ∉ commandNames → cmd = .invalid
  argument : ∀ arg, cmd.argument = some arg → arg = queryArgument q

theorem identify_splits (q : Text) :
    SplitsAtBlank q (identifyCommand (queryWord q) (queryArgument q)) := by
  have hname := identify_name (queryWord q) (queryArgument q)
  refine ⟨?_,?_,identify_argument _ _⟩
  · intro w hw
    rw [hname]
    split
    · simp
    · rename_i hnot
      simp only [reduceCtorEq, false_iff]
      rintro rfl
      exact hnot hw
  · exact fun hnot => identify_unknown hnot _

theorem blank_notMem_names : ∀ w ∈ commandNames, blank ∉ w := by
  decide

theorem queryWord_blank {w : Text} (hw : blank ∉ w) (arg : Text) :
    queryWord (w++blank::arg) = w ∧ queryArgument (w++blank::arg) = arg := by
  have hall : ∀ c ∈ w, decide (c ≠ blank) = true := by
    intro c hc
    exact decide_eq_true fun he => hw (he ▸ hc)
  constructor
  · rw [queryWord, if_pos (by simp), List.takeWhile_append_of_pos hall]
    simp
  · rw [queryArgument, List.dropWhile_append_of_pos hall]
    simp

theorem queryWord_line {body : Text} (hbody : newline ∉ body) (hb : blank ∉ body) :
    queryWord (body++[newline]) = body ∧ queryArgument (body++[newline]) = [] := by
  have hall : ∀ c ∈ body, decide (c ≠ newline) = true := by
    intro c hc
    exact decide_eq_true fun he => hbody (he ▸ hc)
  have hne : blank ∉ body++[newline] := by
    simp only [List.mem_append, hb, false_or]
    decide
  constructor
  · rw [queryWord, if_neg hne, List.takeWhile_append_of_pos hall]
    simp
  · have hdrop : (body++[newline]).dropWhile (· ≠ blank) = [] := by
      apply List.dropWhile_eq_nil_iff.mpr
      intro c hc
      exact decide_eq_true fun he => hne (he ▸ hc)
    rw [queryArgument, hdrop]
    rfl

def blankedNames : List Text := [text "PWD \n",text "MKD \n",text "RMD \n"]

theorem blanked_refused {q : Text} (h : q ∈ blankedNames) :
    createCommand q = .ok .invalid ∧ queryWord q ∈ commandNames := by
  revert q
  decide

/-- A short query is compared as a whole, so that a blank in it makes it
invalid. Its first word is a name in three cases. -/
theorem create_short_blank {w arg : Text} (hq : IsLine (w++blank::arg))
    (hlen : (w++blank::arg).length ≤ 5) (hnot : w++blank::arg ∉ blankedNames) :
    createCommand (w++blank::arg) = .ok .invalid ∧ w ∉ commandNames := by
  obtain ⟨body,-,hbody⟩ := hq
  have hargne : arg ≠ [] := by
    rintro rfl
    exact absurd (List.append_inj' hbody rfl).2 (by decide)
  obtain ⟨arg',last,rfl⟩ : ∃ arg' last, arg = arg'++[last] :=
    ⟨arg.dropLast,arg.getLast hargne,(List.dropLast_append_getLast hargne).symm⟩
  have hlast : last = newline := by
    have heq : (w++blank::arg')++[last] = body++[newline] := by simpa using hbody
    simpa using (List.append_inj' heq rfl).2
  subst hlast
  constructor
  · have hdrop : (w++blank::(arg'++[newline])).dropLast = w++blank::arg' := by
      have hsnoc : w++blank::(arg'++[newline]) = (w++blank::arg')++[newline] := by simp
      rw [hsnoc, List.dropLast_concat]
    have hblank : w++blank::arg' ∉ commandNames := fun hmem =>
      blank_notMem_names _ hmem (by simp)
    rw [create_short (by simp) hlen, hdrop, identify_unknown hblank]
  · intro hmem
    have hshape : arg' = [] ∧ w.length = 3 := by
      have h3 := (names_length w hmem).1
      simp only [List.length_append, List.length_cons, List.length_nil] at hlen
      exact ⟨List.length_eq_zero_iff.mp (by omega),by omega⟩
    obtain ⟨rfl,h3⟩ := hshape
    have hshort : ∀ w ∈ commandNames, w.length = 3 → w++[blank,newline] ∈ blankedNames := by
      decide
    exact hnot (hshort w hmem h3)

/-- A query is split at its first blank in every case but three. -/
theorem create_splits_iff {q : Text} (hq : IsLine q) (hlen : 2 ≤ q.length) :
    (∃ cmd, createCommand q = .ok cmd ∧ SplitsAtBlank q cmd) ↔ q ∉ blankedNames := by
  constructor
  · rintro ⟨cmd,hcmd,hsplit⟩ hmem
    obtain ⟨hinvalid,hname⟩ := blanked_refused hmem
    obtain rfl : cmd = .invalid := (Except.ok.inj (hinvalid.symm.trans hcmd)).symm
    have hnamed := (hsplit.named _ hname).mpr rfl
    cases hnamed
  · intro hnot
    suffices h : createCommand q = .ok (identifyCommand (queryWord q) (queryArgument q)) from
      ⟨_,h,identify_splits q⟩
    by_cases hb : blank ∈ q
    · obtain ⟨w,arg,hw,rfl⟩ := first_blank hb
      obtain ⟨hword,harg⟩ := queryWord_blank hw arg
      rw [hword, harg]
      by_cases hlong : 5 < (w++blank::arg).length
      · exact create_split hw hlong
      · obtain ⟨hinvalid,hname⟩ := create_short_blank hq (by omega) hnot
        rw [hinvalid, identify_unknown hname]
    · obtain ⟨body,hbody,rfl⟩ := hq
      have hbb : blank ∉ body := fun h => hb (List.mem_append_left _ h)
      obtain ⟨hword,harg⟩ := queryWord_line hbody hbb
      rw [hword, harg]
      by_cases hlong : 5 < (body++[newline]).length
      · have h4 : 4 < body.length := by
          rw [List.length_append, List.length_singleton] at hlong
          omega
        rw [create_unsplit hb hlong, identify_long h4]
      · rw [create_short (by simp) (by omega), List.dropLast_concat]

theorem create_splits_iff_mkd :
    createCommand (text "MKD a b\n") = .ok (.mkd (text "a b\n")) ∧
    ∃ cmd, createCommand (text "MKD a b\n") = .ok cmd ∧ SplitsAtBlank (text "MKD a b\n") cmd :=
  ⟨by decide,(create_splits_iff ⟨text "MKD a b",by decide,by decide⟩ (by decide)).mpr (by decide)⟩

theorem create_blanked_mkd :
    ¬ ∀ q, IsLine q → 2 ≤ q.length →
      ∃ cmd, createCommand q = .ok cmd ∧ SplitsAtBlank q cmd := by
  intro h
  obtain ⟨cmd,hcmd,hsplit⟩ := h (text "MKD \n") ⟨text "MKD ",by decide,by decide⟩ (by decide)
  have hinvalid : createCommand (text "MKD \n") = .ok .invalid := by decide
  obtain rfl : cmd = .invalid := (Except.ok.inj (hinvalid.symm.trans hcmd)).symm
  have hnamed := (hsplit.named cmdMkd (by decide)).mpr (by decide)
  cases hnamed

end Workshop.FtpCommand
