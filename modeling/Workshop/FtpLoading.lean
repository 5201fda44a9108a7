import Workshop.FtpConfig

/-!
# Loading the configuration

The loop of the constructor tests the end bit, which reads set and failures do
not. On a file of lines `key=value` it takes one line in each turn. Behind a
last line with a line end it makes one turn more, which stores the value before
it again under the empty key.
-/

set_option autoImplicit false

namespace Workshop.FtpLoading
open Workshop.CMemory Workshop.FtpConfig

def Good (s : Stream) : Prop := s.eof = false ∧ s.fail = false

section Progress
variable {s : Stream} (delim : UInt8) (target : Text)

theorem getline_found (h : Good s) (hd : delim ∈ s.rest) :
    getline delim s target =
      ({ s with rest := (s.rest.dropWhile (· ≠ delim)).tail },s.rest.takeWhile (· ≠ delim)) := by
  rw [getline, h.1, h.2, if_neg (by decide), if_pos hd]

theorem getline_last (h : Good s) (hd : delim ∉ s.rest) :
    getline delim s target = (⟨[],true,s.rest.isEmpty⟩,s.rest) := by
  rw [getline, h.1, h.2, if_neg (by decide), if_neg hd]

theorem getline_refused (h : s.eof = true ∨ s.fail = true) :
    getline delim s target = ({ s with fail := true },target) := by
  rw [getline, if_pos (by simpa using h)]

theorem getline_progress (h : Good s) :
    (getline delim s target).1.eof = true ∨ (Good (getline delim s target).1 ∧
      (getline delim s target).1.rest.length < s.rest.length) := by
  by_cases hd : delim ∈ s.rest
  · right
    rw [getline_found delim target h hd]
    have hne : s.rest.dropWhile (· ≠ delim) ≠ [] := by
      intro hnil
      have hall := List.dropWhile_eq_nil_iff.mp hnil delim hd
      simp at hall
    have hpos := List.length_pos_iff.mpr hne
    have hle := (List.dropWhile_suffix (l := s.rest) (· ≠ delim)).length_le
    refine ⟨h,?_⟩
    rw [List.length_tail]
    omega
  · left
    rw [getline_last delim target h hd]

end Progress

section Loop
variable {l : Loading}

theorem loadEntry_progress (h : Good l.configstream) :
    (loadEntry l).configstream.eof = true ∨ (Good (loadEntry l).configstream ∧
      (loadEntry l).configstream.rest.length < l.configstream.rest.length) := by
  rw [loadEntry]
  rcases getline_progress '='.toUInt8 l.auxStr1 h with heof | ⟨hgood,hlt⟩
  · left
    rw [getline_refused newline l.auxStr2 (.inl heof)]
    exact heof
  · rcases getline_progress newline l.auxStr2 hgood with heof | ⟨hgood',hlt'⟩
    · exact .inl heof
    · exact .inr ⟨hgood',hlt'.trans hlt⟩

/-- The end is reached after at most as many turns as there are bytes, and two
more. -/
theorem loadLoop_good (h : Good l.configstream) :
    ∃ cfg, ∀ n, l.configstream.rest.length+2 ≤ n → loadLoop n l = .ok cfg := by
  induction hm : l.configstream.rest.length using Nat.strong_induction_on generalizing l with
  | _ m ih =>
    subst hm
    have hturn : ∀ n, loadLoop (n+1) l = loadLoop n (loadEntry l) := by
      intro n
      rw [loadLoop, h.1, if_neg (by decide)]
    rcases loadEntry_progress h with heof | ⟨hgood,hlt⟩
    · refine ⟨(loadEntry l).cfg,fun n hn => ?_⟩
      obtain ⟨k,rfl⟩ : ∃ k, n = k+2 := ⟨n-2,by omega⟩
      rw [hturn, loadLoop, if_pos heof]
    · obtain ⟨cfg,hcfg⟩ := ih _ hlt hgood rfl
      refine ⟨cfg,fun n hn => ?_⟩
      obtain ⟨k,rfl⟩ : ∃ k, n = k+1 := ⟨n-1,by omega⟩
      rw [hturn]
      exact hcfg k (by omega)

theorem loadLoop_refused (n : ℕ) (heof : l.configstream.eof = false)
    (hfail : l.configstream.fail = true) : loadLoop n l = .error .running := by
  induction n generalizing l with
  | zero => rfl
  | succ n ih =>
    rw [loadLoop, heof, if_neg (by decide)]
    apply ih
    · rw [loadEntry, getline_refused _ _ (.inr hfail), getline_refused _ _ (.inr rfl)]
      exact heof
    · rw [loadEntry, getline_refused _ _ (.inr hfail), getline_refused _ _ (.inr rfl)]

theorem loadLoop_ends_iff (l : Loading) :
    (∃ n cfg, loadLoop n l = .ok cfg) ↔
      l.configstream.eof = true ∨ l.configstream.fail = false := by
  constructor
  · rintro ⟨n,cfg,hrun⟩
    by_contra hnot
    rw [not_or, Bool.not_eq_true, Bool.not_eq_false] at hnot
    rw [loadLoop_refused n hnot.1 hnot.2] at hrun
    cases hrun
  · intro h
    cases heof : l.configstream.eof with
    | true => exact ⟨1,l.cfg,by rw [loadLoop, if_pos heof]⟩
    | false =>
      have hgood : Good l.configstream := ⟨heof,h.resolve_left (by rw [heof]; decide)⟩
      obtain ⟨cfg,hcfg⟩ := loadLoop_good hgood
      exact ⟨_,cfg,hcfg _ le_rfl⟩

end Loop

/-- The constructor returns exactly when the file can be opened. -/
theorem construct_ends_iff (file : Option Text) :
    (∃ n cfg, Config.construct file n = .ok cfg) ↔ file ≠ none := by
  refine (loadLoop_ends_iff _).trans ?_
  cases file with
  | none => simp [openStream]
  | some content => simp [openStream]

theorem construct_unopened : ¬ ∀ file, ∃ n cfg, Config.construct file n = .ok cfg := by
  intro h
  obtain ⟨n,cfg,hrun⟩ := h none
  rw [Config.construct, loadLoop_refused n rfl rfl] at hrun
  cases hrun

def entryLine (entry : Text × Text) : Text := entry.1++ '='.toUInt8::entry.2

def configFile (ended : Bool) (entries : List (Text × Text)) : Text :=
  let lines := entries.flatMap fun entry => entryLine entry++[newline]
  if ended then lines else lines.dropLast

structure Entry (entry : Text × Text) : Prop where
  key : '='.toUInt8 ∉ entry.1
  value : newline ∉ entry.2

section Lines
variable {key value : Text} (rest auxStr1 auxStr2 : Text) (cfg : Config)

theorem getline_delim {delim : UInt8} {s : Text} (h : delim ∉ s) (target : Text) :
    getline delim ⟨s++delim::rest,false,false⟩ target = (⟨rest,false,false⟩,s) := by
  have hall : ∀ c ∈ s, decide (c ≠ delim) = true := by
    intro c hc
    exact decide_eq_true fun he => h (he ▸ hc)
  rw [getline_found delim target ⟨rfl,rfl⟩ (by simp)]
  dsimp only
  rw [List.takeWhile_append_of_pos hall, List.dropWhile_append_of_pos hall]
  simp

theorem loadEntry_line (h : Entry (key,value)) :
    loadEntry ⟨⟨entryLine (key,value)++newline::rest,false,false⟩,auxStr1,auxStr2,cfg⟩ =
      ⟨⟨rest,false,false⟩,key,value++[newline],cfg.emplace key value⟩ := by
  have hsplit : entryLine (key,value)++newline::rest =
      key++ '='.toUInt8::(value++newline::rest) := by simp [entryLine]
  have hkey := getline_delim (value++newline::rest) h.key auxStr1
  have hvalue := getline_delim rest h.value auxStr2
  rw [loadEntry, hsplit]
  simp only [hkey, hvalue]

theorem loadEntry_last (h : Entry (key,value)) :
    loadEntry ⟨⟨entryLine (key,value),false,false⟩,auxStr1,auxStr2,cfg⟩ =
      ⟨⟨[],true,value.isEmpty⟩,key,value++[newline],cfg.emplace key value⟩ := by
  have hkey := getline_delim value h.key auxStr1
  have hvalue : getline newline ⟨value,false,false⟩ auxStr2 = (⟨[],true,value.isEmpty⟩,value) :=
    getline_last newline auxStr2 ⟨rfl,rfl⟩ h.value
  rw [loadEntry, entryLine]
  simp only [hkey, hvalue]

theorem loadEntry_end :
    loadEntry ⟨⟨[],false,false⟩,auxStr1,auxStr2,cfg⟩ =
      ⟨⟨[],true,true⟩,[],auxStr2++[newline],cfg.emplace [] auxStr2⟩ := by
  have hkey : getline '='.toUInt8 ⟨[],false,false⟩ auxStr1 = (⟨[],true,true⟩,[]) :=
    getline_last _ _ ⟨rfl,rfl⟩ (by simp)
  have hvalue : getline newline ⟨[],true,true⟩ auxStr2 = (⟨[],true,true⟩,auxStr2) :=
    getline_refused _ _ (.inl rfl)
  rw [loadEntry]
  simp only [hkey, hvalue]

end Lines

def emplaceAll (cfg : Config) (entries : List (Text × Text)) : Config :=
  entries.foldl (fun cfg entry => cfg.emplace entry.1 entry.2) cfg

theorem lookup_emplace (cfg : Config) (key value k : Text) :
    (cfg.emplace key value).configmap.lookup k =
      (cfg.configmap.lookup k).or (([(key,value)].lookup k).map (·++[newline])) := by
  rw [Config.emplace]
  by_cases hany : (cfg.configmap.any (·.1 = key)) = true
  · rw [if_pos hany]
    by_cases hk : k = key
    · subst hk
      have hsome : (cfg.configmap.lookup k).isSome = true := by
        obtain ⟨entry,he,hkey⟩ := List.any_eq_true.mp hany
        exact List.lookup_isSome_iff.mpr ⟨entry,he,by simpa using (of_decide_eq_true hkey).symm⟩
      rw [Option.or_of_isSome hsome]
    · have hne : (k == key) = false := by simpa using hk
      have hnone : [(key,value)].lookup k = none := by simp [List.lookup_cons, hne]
      rw [hnone, Option.map_none, Option.or_none]
  · rw [if_neg hany]
    change (cfg.configmap++[(key,value++[newline])]).lookup k = _
    rw [List.lookup_append]
    congr 1
    cases hk : k == key with
    | true => simp [List.lookup_cons, hk]
    | false => simp [List.lookup_cons, hk]

theorem lookup_emplaceAll (cfg : Config) (entries : List (Text × Text)) (k : Text) :
    (emplaceAll cfg entries).configmap.lookup k =
      (cfg.configmap.lookup k).or ((entries.lookup k).map (·++[newline])) := by
  induction entries generalizing cfg with
  | nil => simp [emplaceAll]
  | cons entry entries ih =>
    rw [emplaceAll, List.foldl_cons]
    refine (ih (cfg.emplace entry.1 entry.2)).trans ?_
    have hsplit : (entry::entries).lookup k = ([entry].lookup k).or (entries.lookup k) :=
      @List.lookup_append _ _ _ [entry] entries k
    rw [lookup_emplace, Option.or_assoc, hsplit, Option.map_or]

theorem loadLoop_lines {entries : List (Text × Text)} (h : ∀ entry ∈ entries, Entry entry)
    (rest auxStr1 auxStr2 : Text) (cfg : Config) :
    ∃ aux1 aux2, ∀ n,
      loadLoop (n+entries.length)
        ⟨⟨(entries.flatMap fun entry => entryLine entry++[newline])++rest,false,false⟩,
          auxStr1,auxStr2,cfg⟩ =
      loadLoop n ⟨⟨rest,false,false⟩,aux1,aux2,emplaceAll cfg entries⟩ := by
  induction entries generalizing auxStr1 auxStr2 cfg with
  | nil => exact ⟨auxStr1,auxStr2,fun n => rfl⟩
  | cons entry entries ih =>
    obtain ⟨hentry,hentries⟩ := List.forall_mem_cons.mp h
    obtain ⟨aux1,aux2,hrest⟩ := ih hentries entry.1 (entry.2++[newline])
      (cfg.emplace entry.1 entry.2)
    refine ⟨aux1,aux2,fun n => ?_⟩
    have hsplit : ((entry::entries).flatMap fun entry => entryLine entry++[newline])++rest =
        entryLine entry++newline::((entries.flatMap fun entry => entryLine entry++[newline])++
          rest) := by simp
    rw [hsplit, List.length_cons, ← Nat.add_assoc, loadLoop, if_neg Bool.false_ne_true,
      loadEntry_line _ _ _ _ hentry, hrest n]
    rfl

section Files
variable {entries : List (Text × Text)}

/-- Behind the last line end the loop makes a turn with the empty key. -/
theorem construct_ended (h : ∀ entry ∈ entries, Entry entry) :
    ∃ stale, Config.construct (some (configFile true entries)) (2+entries.length) =
      .ok (emplaceAll emptyConfig (entries++[([],stale)])) := by
  obtain ⟨aux1,aux2,hrun⟩ := loadLoop_lines h [] [] [] emptyConfig
  rw [List.append_nil] at hrun
  refine ⟨aux2,?_⟩
  rw [emplaceAll, List.foldl_append]
  refine (hrun 2).trans ?_
  rw [loadLoop, if_neg Bool.false_ne_true, loadEntry_end, loadLoop, if_pos rfl]
  rfl

theorem construct_unended {last : Text × Text} (h : ∀ entry ∈ entries, Entry entry)
    (hlast : Entry last) :
    Config.construct (some (configFile false (entries++[last]))) (2+entries.length) =
      .ok (emplaceAll emptyConfig (entries++[last])) := by
  obtain ⟨aux1,aux2,hrun⟩ := loadLoop_lines h (entryLine last) [] [] emptyConfig
  have hfile : configFile false (entries++[last]) =
      (entries.flatMap fun entry => entryLine entry++[newline])++entryLine last := by
    rw [configFile, if_neg Bool.false_ne_true, List.flatMap_append, List.flatMap_singleton,
      ← List.append_assoc, List.dropLast_concat]
  rw [hfile, emplaceAll, List.foldl_append]
  refine (hrun 2).trans ?_
  rw [loadLoop, if_neg Bool.false_ne_true, loadEntry_last _ _ _ hlast, loadLoop, if_pos rfl]
  rfl

theorem construct_file (ended : Bool) (h : ∀ entry ∈ entries, Entry entry) :
    ∃ n more, Config.construct (some (configFile ended entries)) n =
      .ok (emplaceAll emptyConfig (entries++more)) := by
  cases ended with
  | true =>
    obtain ⟨stale,hrun⟩ := construct_ended h
    exact ⟨_,_,hrun⟩
  | false =>
    rcases List.eq_nil_or_concat entries with rfl | ⟨before,last,rfl⟩
    · exact ⟨2,[([],[])],rfl⟩
    · rw [List.concat_eq_append] at h ⊢
      obtain ⟨hbefore,hlast⟩ := List.forall_mem_append.mp h
      refine ⟨2+before.length,[],?_⟩
      rw [List.append_nil]
      exact construct_unended hbefore (hlast last (List.mem_singleton_self _))

/-- The constructor returns on every file of lines `key=value`, and a key of the
file has its first value with one line end. -/
theorem config_round_trip (ended : Bool)
    (hkeys : ∀ entry ∈ entries, '='.toUInt8 ∉ entry.1 ∧ newline ∉ entry.1)
    (hvalues : ∀ entry ∈ entries, newline ∉ entry.2) :
    ∃ n cfg, Config.construct (some (configFile ended entries)) n = .ok cfg ∧
      ∀ entry ∈ entries, ∃ value, entries.lookup entry.1 = some value ∧
        cfg.getMessage entry.1 = .ok (value++[newline]) := by
  obtain ⟨n,more,hrun⟩ := construct_file ended fun entry he =>
    Entry.mk (hkeys entry he).1 (hvalues entry he)
  refine ⟨n,_,hrun,fun entry he => ?_⟩
  have hsome : (entries.lookup entry.1).isSome = true :=
    List.lookup_isSome_iff.mpr ⟨entry,he,by simp⟩
  obtain ⟨value,hvalue⟩ := Option.isSome_iff_exists.mp hsome
  have hstored : (emplaceAll emptyConfig (entries++more)).configmap.lookup entry.1 =
      some (value++[newline]) := by
    rw [lookup_emplaceAll, List.lookup_append, hvalue]
    rfl
  refine ⟨value,hvalue,?_⟩
  rw [Config.getMessage, hstored]

end Files

def shippedEntries : List (Text × Text) :=
  [(msgNewClient,text "TallerFTP"),
    (keyUser,text "admin"),
    (keyPass,text "l33tP4s5"),
    (msgPassRequired,text "Please specify the password."),
    (msgLoginFailed,text "Login incorrect."),
    (msgLoginSuccess,text "Login successful."),
    (msgNotLogged,text "Please login with USER and PASS."),
    (msgPwd,text "\"/home/admin/ftp\" is the current directory"),
    (msgListBegin,text "Here comes the directory listing."),
    (msgListEnd,text "Directory send OK."),
    (msgMkdSuccess,text "created"),
    (msgMkdFailure,text "Create directory operation failed"),
    (msgRmdSuccess,text "Remove directory operation successful."),
    (msgRmdFailed,text "Remove directory operation failed."),
    (msgQuit,text "Goodbye."),
    (msgHelp,text "HELP LIST MKD PASS PWD QUIT RMD SYST USER"),
    (msgSyst,text "UNIX Type: L8"),
    (msgUnknown,text "Unknown command.")]

theorem config_round_trip_shipped :
    ∃ n cfg, Config.construct (some (configFile true shippedEntries)) n = .ok cfg ∧
      ∀ key ∈ messageKeys, ∃ value, shippedEntries.lookup key = some value ∧
        cfg.getMessage key = .ok (value++[newline]) := by
  obtain ⟨n,cfg,hrun,hget⟩ := @config_round_trip shippedEntries true
    (by decide +kernel) (by decide +kernel)
  refine ⟨n,cfg,hrun,fun key hkey => ?_⟩
  have hlisted : ∀ key ∈ messageKeys, key ∈ shippedEntries.map Prod.fst := by decide +kernel
  obtain ⟨entry,he,rfl⟩ := List.mem_map.mp (hlisted key hkey)
  exact hget entry he

end Workshop.FtpLoading
